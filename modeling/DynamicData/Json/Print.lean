import DynamicData.Number.FloatText
import DynamicData.Tree

/-!
# Writing JSON

`Tree.compact` writes a tree without blanks and with the keys in their order;
`Tree.pretty` sorts the keys of every object and indents by two spaces. Doubles
that are not finite have no JSON form and are written as null.
-/

namespace DynamicData

namespace Json

def escapeChar (c : Char) : String :=
  if c = '"' then "\\\""
  else if c = '\\' then "\\\\"
  else if c = '\x08' then "\\b"
  else if c = '\x0c' then "\\f"
  else if c = '\n' then "\\n"
  else if c = '\r' then "\\r"
  else if c = '\t' then "\\t"
  else if c.toNat < 0x20 then
    "\\u00" ++ (if c.toNat < 0x10 then "0" else "") ++
      String.ofList (Nat.toDigits 16 c.toNat)
  else c.toString

def quote (s : String) : String :=
  "\"" ++ String.join (s.toList.map escapeChar) ++ "\""

def ofBinary64 (x : Binary64) : String :=
  if x.isFinite then FloatStyle.json.text x else "null"

def indent (depth : Nat) : String :=
  String.ofList (List.replicate (2 * depth) ' ')

end Json

namespace Tree

variable {ι : Type}

mutual

/-- A tree as JSON without blanks. -/
def compact : Tree ι → String
  | .null => "null"
  | .bool b => if b then "true" else "false"
  | .int i => toString i.toInt
  | .uint u => toString u.toNat
  | .float x => Json.ofBinary64 x
  | .text s => Json.quote s
  | .array _ [] => "[]"
  | .array _ (t :: rest) => "[" ++ compact t ++ compactItems rest ++ "]"
  | .object _ [] => "\x7b\x7d"
  | .object _ ((k, t) :: rest) =>
    "\x7b" ++ (Json.quote k ++ ":" ++ compact t) ++ compactEntries rest ++ "\x7d"

/-- Items, each after a comma. -/
def compactItems : List (Tree ι) → String
  | [] => ""
  | t :: rest => "," ++ compact t ++ compactItems rest

def compactEntries : List (String × Tree ι) → String
  | [] => ""
  | (k, t) :: rest => "," ++ (Json.quote k ++ ":" ++ compact t) ++ compactEntries rest

end

mutual

/-- A tree as JSON over several lines, from a place `depth` levels deep. -/
def indented (depth : Nat) : Tree ι → String
  | .array _ (t :: rest) =>
    "[\n" ++ (Json.indent (depth + 1) ++ indented (depth + 1) t) ++
      indentedItems (depth + 1) rest ++ "\n" ++ Json.indent depth ++ "]"
  | .object _ ((k, t) :: rest) =>
    "\x7b\n" ++ (Json.indent (depth + 1) ++ Json.quote k ++ ": " ++ indented (depth + 1) t) ++
      indentedEntries (depth + 1) rest ++ "\n" ++ Json.indent depth ++ "\x7d"
  | t => compact t

def indentedItems (depth : Nat) : List (Tree ι) → String
  | [] => ""
  | t :: rest =>
    ",\n" ++ (Json.indent depth ++ indented depth t) ++ indentedItems depth rest

def indentedEntries (depth : Nat) : List (String × Tree ι) → String
  | [] => ""
  | (k, t) :: rest =>
    ",\n" ++ (Json.indent depth ++ Json.quote k ++ ": " ++ indented depth t) ++
      indentedEntries depth rest

end

/-- A tree as JSON over several lines, keys in ascending order. -/
def pretty (t : Tree ι) : String :=
  indented 0 t.sorted

/-- A tree as plain text: a text as it is, a double also where JSON has no form for
it, and all else as compact JSON. -/
def natural : Tree ι → String
  | .text s => s
  | .float x => FloatStyle.json.text x
  | t => compact t

end Tree
end DynamicData

import DynamicData.Tree
import DynamicData.Number.FloatText

/-!
# Trees for a developer's eye

The debugging form names the variant of every scalar. It comes on one line
(`debug`) or with one item a line, each level indented by four spaces
(`debugPretty`).
-/

namespace DynamicData

namespace Debug

def escapeChar (c : Char) : String :=
  if c = '"' then "\\\""
  else if c = '\\' then "\\\\"
  else if c = '\n' then "\\n"
  else if c = '\r' then "\\r"
  else if c = '\t' then "\\t"
  else if c = '\x00' then "\\0"
  else if c.toNat < 0x20 ∨ c.toNat = 0x7f then
    "\\u\x7b" ++ String.ofList (Nat.toDigits 16 c.toNat) ++ "\x7d"
  else c.toString

def quote (s : String) : String :=
  "\"" ++ String.join (s.toList.map escapeChar) ++ "\""

def indent (depth : Nat) : String :=
  String.ofList (List.replicate (4 * depth) ' ')

end Debug

namespace Tree

variable {ι : Type}

mutual

/-- The debugging form on one line. -/
def debug : Tree ι → String
  | .null => "Null"
  | .bool b => "Bool(" ++ (if b then "true" else "false") ++ ")"
  | .int i => "Int(" ++ toString i.toInt ++ ")"
  | .uint u => "UInt(" ++ toString u.toNat ++ ")"
  | .float x => "Float(" ++ FloatStyle.debug.text x ++ ")"
  | .text s => "String(" ++ Debug.quote s ++ ")"
  | .array _ items => "[" ++ ", ".intercalate (debugItems items) ++ "]"
  | .object _ entries => "\x7b" ++ ", ".intercalate (debugEntries entries) ++ "\x7d"

def debugItems : List (Tree ι) → List String
  | [] => []
  | t :: rest => debug t :: debugItems rest

def debugEntries : List (String × Tree ι) → List String
  | [] => []
  | (k, t) :: rest => (Debug.quote k ++ ": " ++ debug t) :: debugEntries rest

end

mutual

/-- The debugging form over several lines of a tree that stands `depth` levels
deep. Scalars and empty containers take one line. -/
def debugLines (depth : Nat) : Tree ι → String
  | .array _ (t :: rest) =>
    "[\n" ++ debugLinesOfItems (depth + 1) (t :: rest) ++ Debug.indent depth ++ "]"
  | .object _ (e :: rest) =>
    "\x7b\n" ++ debugLinesOfEntries (depth + 1) (e :: rest) ++ Debug.indent depth ++ "\x7d"
  | t => debug t

def debugLinesOfItems (depth : Nat) : List (Tree ι) → String
  | [] => ""
  | t :: rest =>
    Debug.indent depth ++ debugLines depth t ++ ",\n" ++ debugLinesOfItems depth rest

def debugLinesOfEntries (depth : Nat) : List (String × Tree ι) → String
  | [] => ""
  | (k, t) :: rest =>
    Debug.indent depth ++ Debug.quote k ++ ": " ++ debugLines depth t ++ ",\n" ++
      debugLinesOfEntries depth rest

end

def debugPretty (t : Tree ι) : String :=
  debugLines 0 t

end Tree
end DynamicData

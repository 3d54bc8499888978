/-!
# Term tags

The byte before a term says how the term is written. `code` and `ofCode?` are
inverse to each other.
-/

namespace DynamicData

/-- The forms in which a term can be written. -/
inductive Tag
  | newFloat
  | smallInteger
  | integer
  | atom
  | nil
  | string
  | list
  | binary
  | smallBig
  | largeBig
  | smallAtom
  | map
  | atomUtf8
  | smallAtomUtf8
  deriving DecidableEq, Repr

namespace Tag

def all : List Tag :=
  [.newFloat, .smallInteger, .integer, .atom, .nil, .string, .list, .binary, .smallBig,
    .largeBig, .smallAtom, .map, .atomUtf8, .smallAtomUtf8]

def code : Tag → UInt8
  | .newFloat => 70
  | .smallInteger => 97
  | .integer => 98
  | .atom => 100
  | .nil => 106
  | .string => 107
  | .list => 108
  | .binary => 109
  | .smallBig => 110
  | .largeBig => 111
  | .smallAtom => 115
  | .map => 116
  | .atomUtf8 => 118
  | .smallAtomUtf8 => 119

def ofCode? (b : UInt8) : Option Tag :=
  all.find? fun t => t.code = b

def name : Tag → String
  | .newFloat => "NewFloat"
  | .smallInteger => "SmallInteger"
  | .integer => "Integer"
  | .atom => "Atom"
  | .nil => "Nil"
  | .string => "String"
  | .list => "List"
  | .binary => "Binary"
  | .smallBig => "SmallBig"
  | .largeBig => "LargeBig"
  | .smallAtom => "SmallAtom"
  | .map => "Map"
  | .atomUtf8 => "AtomUtf8"
  | .smallAtomUtf8 => "SmallAtomUtf8"

def isAtom : Tag → Bool
  | .atom | .smallAtom | .atomUtf8 | .smallAtomUtf8 => true
  | _ => false

theorem ofCode?_code (t : Tag) : ofCode? t.code = some t := by
  cases t <;> decide

theorem code_of_ofCode? {b : UInt8} {t : Tag} (h : ofCode? b = some t) : t.code = b := by
  simpa using List.find?_some h

end Tag
end DynamicData

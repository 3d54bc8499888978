import DynamicData.Error
import DynamicData.Term.Basic
import DynamicData.Tree

/-!
# Documents as terms

A tree is carried by a term: texts and keys as binaries, integers of both forms
alike. Read back, an atom counts as a text, a key may be an atom, and a key that
comes again replaces the earlier value in its place. A term has no document if an
integer in it exceeds 64 bits, a binary is not text, or a key is neither binary
nor atom.
-/

namespace DynamicData

namespace Tree

variable {ι : Type}

mutual

def term : Tree ι → Term
  | .null => .nil
  | .bool b => .bool b
  | .int i => .integer i.toInt
  | .uint u => .integer u.toNat
  | .float x => .float x
  | .text s => .ofText s
  | .array _ items => .list (termItems items)
  | .object _ entries => .map (termEntries entries)

def termItems : List (Tree ι) → List Term
  | [] => []
  | t :: rest => term t :: termItems rest

def termEntries : List (String × Tree ι) → List (Term × Term)
  | [] => []
  | (k, t) :: rest => (.ofText k, term t) :: termEntries rest

end

end Tree

namespace Term

/-- Why a term carries no document. -/
inductive Unfit
  | integer (i : Int)
  | notText
  | key (typeName : String)
  deriving DecidableEq, Repr

def Unfit.message : Unfit → String
  | .integer i => "integer " ++ toString i ++ " does not fit in 64 bits"
  | .notText => "binary is not valid UTF-8 text"
  | .key typeName => "map key must be text, found " ++ typeName

/-- The key that a term stands for. -/
def key (t : Term) : Except Unfit String :=
  match t.text? with
  | some k => .ok k
  | none => .error (.key t.typeName)

mutual

def document : Term → Except Unfit Document
  | .nil => .ok .null
  | .bool b => .ok (.bool b)
  | .integer i =>
    match Tree.integer? i with
    | some t => .ok t
    | none => .error (.integer i)
  | .float x => .ok (.float x)
  | .binary bytes =>
    match Text.decode? bytes with
    | some s => .ok (.text s)
    | none => .error .notText
  | .atom name => .ok (.text name)
  | .list items => do return .array () (← documentItems items)
  | .map pairs => do return .object () (Entries.ofPairs (← documentPairs pairs))

def documentItems : List Term → Except Unfit (List Document)
  | [] => .ok []
  | t :: rest => do
    let d ← document t
    return d :: (← documentItems rest)

/-- The keys and documents that the pairs carry, each key looked at before its
value. -/
def documentPairs : List (Term × Term) → Except Unfit (List (String × Document))
  | [] => .ok []
  | (k, t) :: rest => do
    let name ← key k
    let d ← document t
    return (name, d) :: (← documentPairs rest)

end

end Term
end DynamicData

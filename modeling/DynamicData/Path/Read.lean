import DynamicData.Limits
import DynamicData.Number.Numeral
import DynamicData.Path.Basic

/-!
# Reading paths

A path starts with a key, or with an index in brackets. After each step comes the
end, a point and a key, or a further index. A key is the longest run of characters
other than points and brackets; its last character, and the one after a closing
bracket, is the optional mark if it is a question mark.
-/

namespace DynamicData

namespace Path

inductive Cause
  | empty
  | expectedName
  | unexpectedClose
  | expectedIndex
  | expectedClose (found : Char)
  | unterminated
  | tooLarge
  | expectedEnd (found : Char)
  deriving DecidableEq, Repr

def Cause.message : Cause → String
  | .empty => "path is empty"
  | .expectedName => "expected a name"
  | .unexpectedClose => "unexpected ']'"
  | .expectedIndex => "expected a non-negative index"
  | .expectedClose found => "expected ']', found '" ++ found.toString ++ "'"
  | .unterminated => "unterminated index step"
  | .tooLarge => "index is too large"
  | .expectedEnd found => "expected '.' or end of path, found '" ++ found.toString ++ "'"

/-- A cause and the text from its place on. -/
structure Fault where
  cause : Cause
  rest : List Char
  deriving DecidableEq, Repr

def byteLength : List Char → Nat
  | [] => 0
  | c :: rest => c.utf8Size + byteLength rest

def isNameChar (c : Char) : Bool :=
  c != '.' && c != '[' && c != ']'

def maxIndex : Nat := 2 ^ 64 - 1

def readKey (cs : List Char) : Except Fault (Step × List Char) :=
  let (run, rest) := cs.span isNameChar
  if rest.head? = some ']' then .error ⟨.unexpectedClose, rest⟩
  else
    let isOptional := run.getLast? = some '?'
    let name := if isOptional then run.dropLast else run
    if name = [] then .error ⟨.expectedName, cs⟩
    else .ok (⟨.key (String.ofList name), isOptional⟩, rest)

/-- Reads an index, after its opening bracket, with its mark. -/
def readIndex (cs : List Char) : Except Fault (Step × List Char) :=
  let (ds, rest) := cs.span Char.isDigit
  if ds = [] then .error ⟨.expectedIndex, rest⟩
  else
    match rest with
    | [] => .error ⟨.unterminated, []⟩
    | ']' :: rest =>
      -- only an index whose bracket is closed can be too large
      let index := Numeral.value ds
      if maxIndex < index then .error ⟨.tooLarge, cs⟩
      else
        match rest with
        | '?' :: rest => .ok (⟨.index index, true⟩, rest)
        | _ => .ok (⟨.index index, false⟩, rest)
    | c :: _ => .error ⟨.expectedClose c, rest⟩

/-- Reads the steps that follow a step. Each round reads a character and uses one up
of `fuel`, so the text itself is fuel enough. -/
def readSteps : (fuel : List Char) → List Char → Except Fault (List Step)
  | _, [] => .ok []
  | [], c :: rest => .error ⟨.expectedEnd c, c :: rest⟩
  | _ :: fuel, '.' :: rest => do
    let (step, rest) ← readKey rest
    return step :: (← readSteps fuel rest)
  | _ :: fuel, '[' :: rest => do
    let (step, rest) ← readIndex rest
    return step :: (← readSteps fuel rest)
  | _, c :: rest => .error ⟨.expectedEnd c, c :: rest⟩

def readAll : List Char → Except Fault (List Step)
  | [] => .error ⟨.empty, []⟩
  | '[' :: rest => readSteps ('[' :: rest) ('[' :: rest)
  | cs => do
    let (step, rest) ← readKey cs
    return step :: (← readSteps rest rest)

/-- Reads a path. A fault is reported at the byte where it lies. -/
def parse (s : String) : Except DataError Path :=
  match readAll s.toList with
  | .ok steps => .ok ⟨steps⟩
  | .error f =>
    .error (.invalidPath s (byteLength s.toList - byteLength f.rest) f.cause.message)

def read (limits : Limits) (s : String) : Except DataError Path := do
  let p ← parse s
  limits.checkPathSteps p.steps.length
  return p

end Path
end DynamicData

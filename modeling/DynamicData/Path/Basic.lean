/-!
# Paths

A path is a list of steps, each a key or an index. An optional step may lead
nowhere. The text of a path puts a point before every key but the first, brackets
around an index, and a question mark after an optional step.
-/

namespace DynamicData

inductive Segment
  | key (key : String)
  | index (index : Nat)
  deriving DecidableEq, Repr

structure Step where
  segment : Segment
  isOptional : Bool
  deriving DecidableEq, Repr

structure Path where
  steps : List Step
  deriving DecidableEq, Repr

namespace Segment

def isKey : Segment → Bool
  | .key _ => true
  | .index _ => false

end Segment

namespace Step

def mark (s : Step) : String :=
  if s.isOptional then "?" else ""

/-- A step that is not the first. -/
def text (s : Step) : String :=
  match s.segment with
  | .key k => "." ++ k ++ s.mark
  | .index i => "[" ++ toString i ++ "]" ++ s.mark

/-- A step at the start of a path. -/
def firstText (s : Step) : String :=
  match s.segment with
  | .key k => k ++ s.mark
  | .index i => "[" ++ toString i ++ "]" ++ s.mark

end Step

namespace Path

def text (p : Path) : String :=
  match p.steps with
  | [] => ""
  | s :: rest => s.firstText ++ String.join (rest.map Step.text)

def isObjectRooted (p : Path) : Bool :=
  match p.steps with
  | s :: _ => s.segment.isKey
  | [] => false

end Path
end DynamicData

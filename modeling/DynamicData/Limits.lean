import DynamicData.Error
import DynamicData.Number.Power

/-!
# Limits on untrusted input

How deeply a payload may nest, how many steps a path may have and how long a
payload may be. Each check passes values up to and including its limit.
-/

namespace DynamicData

structure Limits where
  maxNestingDepth : Nat := 128
  maxPathSteps : Nat := 100
  maxPayloadBytes : Nat := 16 * 1024 * 1024
  deriving DecidableEq, Repr, Inhabited

namespace Limits

def standard : Limits := {}

/-- Limits for input from anyone. -/
def strict : Limits := ⟨32, 20, 1024 * 1024⟩

/-- Limits for input from a trusted source. -/
def permissive : Limits := ⟨512, 1000, 256 * 1024 * 1024⟩

/-- The largest number of machine size. -/
def sizeMax : Nat := 2 ^ 64 - 1

def unlimited : Limits := ⟨sizeMax, sizeMax, sizeMax⟩

def check (limit : String) (max actual : Nat) : Except DataError Unit :=
  if max < actual then .error (.limitExceeded limit max actual) else .ok ()

def checkNestingDepth (l : Limits) (depth : Nat) : Except DataError Unit :=
  check "nesting depth" l.maxNestingDepth depth

def checkPathSteps (l : Limits) (steps : Nat) : Except DataError Unit :=
  check "path steps" l.maxPathSteps steps

def checkPayloadBytes (l : Limits) (bytes : Nat) : Except DataError Unit :=
  check "payload bytes" l.maxPayloadBytes bytes

theorem check_eq_ok_iff {limit : String} {max actual : Nat} :
    check limit max actual = .ok () ↔ actual ≤ max := by
  unfold check
  split <;> simp <;> omega

end Limits
end DynamicData

import DynamicData.Bytes.Basic

/-!
# Reading from the front of a byte string

A parser takes bytes from the front of what is left, or fails with an `ε`. Its
state is the rest of the input, so a position is known from how much is left.
-/

namespace DynamicData

/-- Reads an `α` from the front of a byte string and leaves the rest. -/
abbrev Parser (ε : Type) := StateT Bytes (Except ε)

namespace Parser

variable {ε α β : Type}

/-- The rest of the input, which stays as it is. -/
def rest : Parser ε Bytes :=
  get

/-- Runs `part` `count` times; the results go after those in `done`, which is in
reverse order. -/
def repeatInto (part : Parser ε α) : (count : Nat) → (done : List α) → Parser ε (List α)
  | 0, done => pure done.reverse
  | count + 1, done => do
    let a ← part
    repeatInto part count (a :: done)

def times (count : Nat) (part : Parser ε α) : Parser ε (List α) :=
  repeatInto part count []

def pair (first : Parser ε α) (second : Parser ε β) : Parser ε (α × β) := do
  let a ← first
  let b ← second
  return (a, b)

theorem bind_apply (p : Parser ε α) (f : α → Parser ε β) (bytes : Bytes) :
    (p >>= f) bytes =
      match p bytes with
      | .ok (a, rest) => f a rest
      | .error e => .error e := by
  show (p bytes >>= fun r => f r.1 r.2) = _
  cases p bytes <;> rfl

end Parser
end DynamicData

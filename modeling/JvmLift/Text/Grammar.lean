/-!
Grammar rules over characters. A rule reads a prefix and gives back the rest, or refuses and reads
nothing, so a choice tries its alternatives in order on the same text.
-/
namespace JvmLift

abbrev Rule (α : Type) := List Char → Option (α × List Char)

namespace Rule

variable {α β : Type}

def map (f : α → β) (p : Rule α) : Rule β := fun s =>
  (p s).map fun (x, rest) => (f x, rest)

def orElse (p q : Rule α) : Rule α := fun s => (p s).or (q s)

def char (c : Char) : Rule Unit
  | [] => none
  | d :: rest => if c = d then some ((), rest) else none

/-- The longest run of characters in a class; refuses an empty run. -/
def run (allowed : Char → Bool) : Rule String := fun s =>
  match s.span allowed with
  | ([], _) => none
  | (cs, rest) => some (String.ofList cs, rest)

def after (c : Char) (p : Rule α) : Rule α := fun s => do
  let (_, s) ← char c s
  p s

def before (p : Rule α) (c : Char) : Rule α := fun s => do
  let (x, s) ← p s
  let (_, s) ← char c s
  return (x, s)

def optional (p : Rule α) : Rule (Option α) := fun s =>
  match p s with
  | some (x, rest) => some (some x, rest)
  | none => some (none, s)

def repeatUpTo (p : Rule α) : Nat → List Char → List α × List Char
  | 0, s => ([], s)
  | n + 1, s =>
      match p s with
      | none => ([], s)
      | some (x, rest) =>
          let (xs, rest) := repeatUpTo p n rest
          (x :: xs, rest)

/-- As many as there are, for a rule that reads at least one character. -/
def many (p : Rule α) : Rule (List α) := fun s => some (repeatUpTo p s.length s)

def many1 (p : Rule α) : Rule (List α) := fun s =>
  match many p s with
  | some ([], _) => none
  | r => r

def whole (p : Rule α) (text : String) : Option α :=
  match p text.toList with
  | some (x, []) => some x
  | _ => none

end Rule

end JvmLift

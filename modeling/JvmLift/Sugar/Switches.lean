import JvmLift.Hierarchy.Resolver
import JvmLift.Sugar.Loops

/-!
Switches over enum constants and strings.
-/
namespace JvmLift.Sugar

/-! ### Enum constants -/

/-- A switch over the ordinal map of an enum: where the map is, the enum, and the switched value. -/
structure OrdinalLookup where
  holder : String
  member : String
  enumName : String
  value : Expr
  deriving Repr

def startsWith (text start : String) : Bool := start.toList.isPrefixOf text.toList

def ordinalArray? : Expr → Option (String × String)
  | .fieldGet owner name _ none =>
      if startsWith name "$SwitchMap$" then some (owner, name) else none
  | .call .static owner name _ _ [] =>
      if startsWith name "$SWITCH_TABLE$" then some (owner, name) else none
  | _ => none

/-- `Holder.$SwitchMap$E[e.ordinal()]`. -/
def ordinalLookup? : Expr → Option OrdinalLookup
  | .arrayLoad array (.call _ owner "ordinal" _ (some value) []) _ =>
      (ordinalArray? array).map fun (holder, member) => ⟨holder, member, owner, value⟩
  | _ => none

def enumLabel (map : OrdinalMap) : CaseLabel → CaseLabel
  | .int k =>
      match map.lookup k with
      | some constant => .enum constant
      | none => .int k
  | l => l

def lookupOf? (t : Tree) : Option OrdinalLookup :=
  match (unlabeled t).2 with
  | .switch .int key _ => ordinalLookup? key
  | _ => none

def enumSwitch (r : Resolver) (t : Tree) : Tree :=
  match unlabeled t with
  | (name, .switch .int key arms) =>
      match ordinalLookup? key with
      | some l =>
          match r.switchMap? l.holder l.member with
          | some map =>
              let arms := arms.map fun (arm, body) =>
                ({ arm with labels := arm.labels.map (enumLabel map) }, body)
              relabeled name (.switch (.enum l.enumName) l.value arms)
          | none => t
      | none => t
  | _ => t

def recoverEnums (r : Resolver) (stmts : List Tree) : List Tree := stmts.map (enumSwitch r)

def enumWarning (r : Resolver) (t : Tree) : List String :=
  match lookupOf? t with
  | some l =>
      if (r.switchMap? l.holder l.member).isNone then
        [s!"no ordinal map {l.holder}.{l.member} for enum switch"]
      else []
  | none => []

def enumLookups (r : Resolver) (t : Tree) : List String :=
  (lookupOf? t).toList.flatMap fun l => r.lookups (.switchMap l.holder l.member)

/-! ### Strings -/

/-- Strings by the index that stands for them, a later one replacing an earlier one. -/
abbrev StringLabels := List (Int32 × String)

def StringLabels.insert (k : Int32) (text : String) (labels : StringLabels) : StringLabels :=
  (k, text) :: labels.filter (·.1 ≠ k)

/-- `tmp.equals("s")`. -/
def equalsLiteral? (tmp : LocalVar) : Expr → Option String
  | .call _ _ "equals" _ (some (.localVar v)) [.stringLit text] =>
      if v.same tmp then some text else none
  | _ => none

def indexSet? (index : LocalVar) (stmts : List Tree) : Option Int32 :=
  match stmts.findSome? Tree.store? with
  | some (v, .intLit k) => if v.same index then some k else none
  | _ => none

mutual

/-- Collects `if (tmp.equals("s")) index = k;`, also in the other branch; anything but a plain
`break` beside it fails. -/
def stringCase (tmp index : LocalVar) (labels : StringLabels) : Tree → Option StringLabels
  | .breakTo none => some labels
  | .ifElse e t b => do
      let text ← equalsLiteral? tmp e
      let k ← indexSet? index t
      stringCasesBlock tmp index (labels.insert k text) b
  | _ => none

def stringCases (tmp index : LocalVar) (labels : StringLabels) :
    List Tree → Option StringLabels
  | [] => some labels
  | t :: ts => do stringCases tmp index (← stringCase tmp index labels t) ts

def stringCasesBlock (tmp index : LocalVar) (labels : StringLabels) :
    Option (List Tree) → Option StringLabels
  | none => some labels
  | some ts => stringCases tmp index labels ts

end

structure Subject where
  value : Option Expr
  index : Option LocalVar

def Subject.note (tmp : LocalVar) (s : Subject) (t : Tree) : Option Subject :=
  match t.store? with
  | some (v, value) =>
      if v.same tmp then some { s with value := some value }
      else
        match value with
        | .intLit k => if k = -1 then some { s with index := some v } else none
        | _ => none
  | none => none

def hashSwitch? : Tree → Option (LocalVar × List (Arm × List Tree))
  | .switch .int (.call _ _ "hashCode" _ (some (.localVar tmp)) []) arms => some (tmp, arms)
  | _ => none

def stringLabel (labels : StringLabels) : CaseLabel → CaseLabel
  | .int k =>
      match labels.lookup k with
      | some text => .string text
      | none => .int k
  | l => l

/-- `tmp = s; index = -1;`, a switch over the hash code that sets the index, and a switch over the
index, as a switch over `s`. -/
def stringSwitch? (uses : VarUses) (t₁ t₂ t₃ t₄ : Tree) : Option Tree := do
  let (tmp, hashArms) ← hashSwitch? t₃
  let s ← Subject.note tmp ⟨none, none⟩ t₁
  let s ← Subject.note tmp s t₂
  let value ← s.value
  let index ← s.index
  let labels ← hashArms.foldlM (fun labels arm => stringCases tmp index labels arm.2) []
  if uses.reads tmp ≠ labels.length + 1 ∨ uses.reads index ≠ 1 then none
  else
    match unlabeled t₄ with
    | (name, .switch .int (.localVar switched) arms) =>
        if switched.same index then
          let arms := arms.map fun (arm, body) =>
            ({ arm with labels := arm.labels.map (stringLabel labels) }, body)
          some (relabeled name (.switch .string value arms))
        else none
    | _ => none

/-- A switch over a string whose switch over the hash code is at position `i`. Where no two statements
are in front of that one, the search breaks off. -/
def stringSwitchAt? (uses : VarUses) (stmts : List Tree) (i : Nat) : Option (Option Tree) :=
  if i < 2 then if (stmts[i]?.bind hashSwitch?).isSome then none else some none
  else
    match stmts.drop (i - 2) with
    | t₁ :: t₂ :: t₃ :: t₄ :: _ => some (stringSwitch? uses t₁ t₂ t₃ t₄)
    | _ => some none

/-- Goes over the positions from `i` on, and back by one when a switch is found. -/
def recoverStringsFrom? (uses : VarUses) (stmts : List Tree) (i : Nat) : Option (List Tree) :=
  if i + 1 < stmts.length then
    match stringSwitchAt? uses stmts i with
    | none => none
    | some none => recoverStringsFrom? uses stmts (i + 1)
    | some (some t) => recoverStringsFrom? uses (stmts.take (i - 2) ++ t :: stmts.drop (i + 2)) (i - 1)
  else some stmts
termination_by 2 * stmts.length - i

def recoverStrings? (uses : VarUses) (stmts : List Tree) : Option (List Tree) := recoverStringsFrom? uses stmts 2

def recoverStrings (uses : VarUses) : List Tree → List Tree
  | t₁ :: t₂ :: t₃ :: t₄ :: rest =>
      match stringSwitch? uses t₁ t₂ t₃ t₄ with
      | some t => t :: recoverStrings uses rest
      | none => t₁ :: recoverStrings uses (t₂ :: t₃ :: t₄ :: rest)
  | ts => ts

end JvmLift.Sugar

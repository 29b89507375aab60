import JvmLift.Block.Basic
import JvmLift.Expr.Condition
import JvmLift.Tree.Traverse

/-!
# What statements of the source language do

Constructs are executed with their usual meaning, and a bound on the rounds of every loop. What simple statements,
conditions and values are is given by actions on a state, which may throw.
-/
namespace JvmLift.Source

universe u v w

inductive Effect (ν : Type v) where
  | onward
  | returned (value : Option ν)
  | threw (value : ν)

/-- What the parts of statements do to a state. A cursor, which is a value too, stands for what a loop over
elements has not visited yet. -/
structure Actions (σ : Type u) (ν : Type v) where
  run : Located → σ → Effect ν × σ
  declare : LocalVar → Option Expr → σ → Except ν Unit × σ
  holds : Expr → σ → Except ν Bool × σ
  value : Expr → σ → Except ν ν × σ
  selects : SwitchKind → CaseLabel → ν → Bool
  catches : Clause → ν → Bool
  caught : Clause → ν → σ → σ
  lock : ν → σ → Except ν Unit × σ
  unlock : ν → σ → Except ν Unit × σ
  iterate : ν → σ → Except ν ν × σ
  next : LocalVar → ν → σ → Except ν (Option ν) × σ

/-- How the execution of a statement ends. A loop that reaches its bound is exhausted; a statement that is
given no meaning is stuck. -/
inductive Ending (ν : Type v) where
  | normal
  | broke (label : Option String)
  | continued (label : Option String)
  | returned (value : Option ν)
  | threw (value : ν)
  | exhausted
  | stuck

namespace Ending

variable {ν : Type v}

/-- Does a `continue` go on with the loop that has the labels `own`? -/
def resumes (own : List String) : Ending ν → Bool
  | .continued none => true
  | .continued (some name) => own.contains name
  | _ => false

def breaks (label : Option String) : Ending ν → Bool
  | .broke l => l == label
  | _ => false

def isNormal : Ending ν → Bool
  | .normal => true
  | _ => false

theorem breaks_eq_true {e : Ending ν} {label : Option String} : e.breaks label = true ↔ e = .broke label := by
  cases e <;> simp [breaks]

end Ending

structure Outcome (σ : Type u) (ν : Type v) where
  trace : List Located
  state : σ
  ending : Ending ν

namespace Outcome

variable {σ : Type u} {ν : Type v}

def done (x : σ) : Outcome σ ν := ⟨[], x, .normal⟩

def behind (r : Outcome σ ν) (trace : List Located) : Outcome σ ν := { r with trace := trace ++ r.trace }

def andThen (r : Outcome σ ν) (next : σ → Outcome σ ν) : Outcome σ ν :=
  match r.ending with
  | .normal => (next r.state).behind r.trace
  | _ => r

def take (r : Outcome σ ν) (taken : Ending ν → Bool) : Outcome σ ν :=
  if taken r.ending then { r with ending := .normal } else r

def handle (r : Outcome σ ν) (handler : ν → σ → Outcome σ ν) : Outcome σ ν :=
  match r.ending with
  | .threw v => (handler v r.state).behind r.trace
  | _ => r

/-- Goes on in any case; the ending stays as it was if the finalizer ends normally. -/
def finish (r : Outcome σ ν) (finalizer : σ → Outcome σ ν) : Outcome σ ν :=
  match r.ending with
  | .exhausted | .stuck => r
  | ending =>
      let q := (finalizer r.state).behind r.trace
      if q.ending.isNormal then { q with ending } else q

end Outcome

def given {σ : Type u} {ν : Type v} {α : Type w} (r : Except ν α × σ) (next : α → σ → Outcome σ ν) : Outcome σ ν :=
  match r.1 with
  | .ok a => next a r.2
  | .error v => ⟨[], r.2, .threw v⟩

/-- At most `n` rounds of a loop, until one does not end normally. -/
def rounds {σ : Type u} {ν : Type v} (round : σ → Outcome σ ν) : Nat → σ → Outcome σ ν
  | 0, x => ⟨[], x, .exhausted⟩
  | n + 1, x => (round x).andThen (rounds round n)

/-- One round of a loop for each element, at most `n`. -/
def elements {σ : Type u} {ν : Type v} (next : ν → σ → Except ν (Option ν) × σ) (round : σ → Outcome σ ν) :
    Nat → ν → σ → Outcome σ ν
  | 0, _, x => ⟨[], x, .exhausted⟩
  | n + 1, cursor, x => given (next cursor x) fun
    | some cursor, y => (round y).andThen (elements next round n cursor)
    | none, y => .done y

namespace Actions

variable {σ : Type u} {ν : Type v}

def simple (A : Actions σ ν) (s : Located) (x : σ) : Outcome σ ν :=
  match A.run s x with
  | (.onward, y) => ⟨[s], y, .normal⟩
  | (.returned v, y) => ⟨[s], y, .returned v⟩
  | (.threw v, y) => ⟨[s], y, .threw v⟩

def declaration (A : Actions σ ν) (v : LocalVar) (init : Option Expr) (x : σ) : Outcome σ ν :=
  given (A.declare v init x) fun _ => .done

def part (A : Actions σ ν) (t : Option Tree) (x : σ) : Outcome σ ν :=
  match t with
  | none => .done x
  | some (.simple s) => A.simple s x
  | some (.declare v init _) => A.declaration v init x
  | some _ => ⟨[], x, .stuck⟩

/-- The test of a loop: another round, or out of the loop. -/
def test (A : Actions σ ν) (e : Expr) (x : σ) : Outcome σ ν :=
  given (A.holds e x) fun b y => ⟨[], y, if b then .normal else .broke none⟩

/-- The place of the arm that a value selects: one that lists it, else the default. -/
def entry (A : Actions σ ν) (k : SwitchKind) (v : ν) (arms : List Arm) : Nat :=
  ((arms.findIdx? (·.labels.any (A.selects k · v))).or (arms.findIdx? (·.isDefault))).getD arms.length

end Actions

section

variable {σ : Type u} {ν : Type v}

mutual

/-- Executes a statement with the labels `own` right in front of it, and at most `n` rounds of every
loop. -/
def exec (A : Actions σ ν) (n : Nat) (own : List String) : Tree → σ → Outcome σ ν
  | .simple s, x => A.simple s x
  | .declare v init _, x => A.declaration v init x
  | .ifElse e t b, x =>
      given (A.holds e x) fun c y => if c then execList A n t y else execBlock A n b y
  | .whileLoop e b, x =>
      let round (y : σ) := (A.test e y).andThen fun z => (execList A n b z).take (·.resumes own)
      (rounds round n x).take (·.breaks none)
  | .doWhile b e, x =>
      let round (y : σ) := ((execList A n b y).take (·.resumes own)).andThen (A.test e)
      (rounds round n x).take (·.breaks none)
  | .forLoop init e update b, x =>
      let round (y : σ) := (A.test e y).andThen fun z =>
        ((execList A n b z).take (·.resumes own)).andThen (A.part update)
      (A.part init x).andThen fun y => (rounds round n y).take (·.breaks none)
  | .forEach v e b, x =>
      let round (y : σ) := (execList A n b y).take (·.resumes own)
      given (A.value e x) fun c y => given (A.iterate c y) fun cursor z =>
        (elements (A.next v) round n cursor z).take (·.breaks none)
  | .switch k e arms, x =>
      given (A.value e x) fun v y =>
        (execArms A n arms (A.entry k v (arms.map (·.1))) y).take (·.breaks none)
  | .tryCatch _ b clauses cleanup, x =>
      ((execList A n b x).handle (execClauses A n clauses)).finish (execBlock A n cleanup)
  | .synchronized e b, x =>
      given (A.value e x) fun v y => given (A.lock v y) fun _ z =>
        (execList A n b z).finish fun w => given (A.unlock v w) fun _ => .done
  | .labeled name b, x => (exec A n (name :: own) b x).take (·.breaks (some name))
  | .breakTo name, x => ⟨[], x, .broke name⟩
  | .continueTo name, x => ⟨[], x, .continued name⟩
  | .label _, x | .comment _, x => .done x
  | .goto _, x => ⟨[], x, .stuck⟩

def execBlock (A : Actions σ ν) (n : Nat) : Option (List Tree) → σ → Outcome σ ν
  | none, x => .done x
  | some ts, x => execList A n ts x

def execList (A : Actions σ ν) (n : Nat) : List Tree → σ → Outcome σ ν
  | [], x => .done x
  | t :: ts, x => (exec A n [] t x).andThen (execList A n ts)

/-- Executes arms from a place on, as long as one runs on into the next. -/
def execArms (A : Actions σ ν) (n : Nat) : List (Arm × List Tree) → Nat → σ → Outcome σ ν
  | [], _, x => .done x
  | _ :: rest, skip + 1, x => execArms A n rest skip x
  | (arm, b) :: rest, 0, x =>
      (execList A n b x).andThen fun y => if arm.fallsThrough then execArms A n rest 0 y else .done y

/-- Executes the first clause that catches a value, or throws it again. -/
def execClauses (A : Actions σ ν) (n : Nat) : List (Clause × List Tree) → ν → σ → Outcome σ ν
  | [], v, x => ⟨[], x, .threw v⟩
  | (c, b) :: rest, v, x =>
      if A.catches c v then execList A n b (A.caught c v x) else execClauses A n rest v x

end

/-- The statement that is executed at a place in the sequence of all. -/
def Executes (A : Actions σ ν) (ts : List Tree) (x : σ) (i : Nat) (s : Located) : Prop :=
  ∃ n, (execList A n ts x).trace[i]? = some s

def Ends (A : Actions σ ν) (ts : List Tree) (x : σ) (r : Outcome σ ν) : Prop :=
  ∃ n, execList A n ts x = r ∧ r.ending ≠ .exhausted

def Diverges (A : Actions σ ν) (ts : List Tree) (x : σ) : Prop :=
  ∀ n, (execList A n ts x).ending = .exhausted

end

/-! ## Laws of outcomes -/

namespace Outcome

variable {σ : Type u} {ν : Type v}

section

variable (r : Outcome σ ν)

@[simp] theorem ending_behind (t : List Located) : (r.behind t).ending = r.ending := rfl

@[simp] theorem state_behind (t : List Located) : (r.behind t).state = r.state := rfl

@[simp] theorem trace_behind (t : List Located) : (r.behind t).trace = t ++ r.trace := rfl

end

@[simp] theorem done_andThen (x : σ) (next : σ → Outcome σ ν) : (done x).andThen next = next x := rfl

variable {r : Outcome σ ν}

theorem andThen_of_normal (h : r.ending = .normal) (next : σ → Outcome σ ν) :
    r.andThen next = (next r.state).behind r.trace := by simp [andThen, h]

theorem andThen_of_ne (h : r.ending ≠ .normal) (next : σ → Outcome σ ν) : r.andThen next = r := by
  unfold andThen
  split
  · contradiction
  · rfl

theorem behind_andThen (r : Outcome σ ν) (t : List Located) (next : σ → Outcome σ ν) :
    (r.behind t).andThen next = (r.andThen next).behind t := by
  by_cases h : r.ending = .normal
  · rw [andThen_of_normal h, andThen_of_normal (by exact h)]
    simp [behind]
  · rw [andThen_of_ne h, andThen_of_ne (by exact h)]

theorem andThen_assoc (r : Outcome σ ν) (f g : σ → Outcome σ ν) :
    (r.andThen f).andThen g = r.andThen fun x => (f x).andThen g := by
  by_cases h : r.ending = .normal
  · rw [andThen_of_normal h, andThen_of_normal h, behind_andThen]
  · rw [andThen_of_ne h, andThen_of_ne h, andThen_of_ne h]

theorem andThen_done (r : Outcome σ ν) : r.andThen done = r := by
  by_cases h : r.ending = .normal
  · obtain ⟨t, x, e⟩ := r
    subst h
    simp [andThen, done, behind]
  · exact andThen_of_ne h _

variable {taken : Ending ν → Bool}

theorem take_of_not (h : taken r.ending = false) : r.take taken = r := by simp [take, h]

theorem take_behind (r : Outcome σ ν) (t : List Located) : (r.behind t).take taken = (r.take taken).behind t := by
  unfold take
  rw [ending_behind]
  split <;> rfl

theorem take_andThen_congr {f g} (h : ∀ x, (f x).take taken = (g x).take taken) :
    (r.andThen f).take taken = (r.andThen g).take taken := by
  by_cases hn : r.ending = .normal
  · rw [andThen_of_normal hn, andThen_of_normal hn, take_behind, take_behind, h]
  · rw [andThen_of_ne hn, andThen_of_ne hn]

theorem andThen_take (h : taken r.ending = false) (next : σ → Outcome σ ν) :
    (r.andThen next).take taken = r.andThen fun x => (next x).take taken := by
  by_cases hn : r.ending = .normal
  · rw [andThen_of_normal hn, andThen_of_normal hn, take_behind]
  · rw [andThen_of_ne hn, andThen_of_ne hn, take_of_not h]

/-! ### Endings -/

variable {P : Ending ν → Prop} {r : Outcome σ ν}

theorem ending_andThen {next} (h : P r.ending) (hn : ∀ x, P (next x).ending) : P (r.andThen next).ending := by
  unfold andThen
  split
  · exact hn _
  · exact h

theorem ending_take (h : taken r.ending = false → P r.ending) (hn : P .normal) : P (r.take taken).ending := by
  unfold take
  split
  · exact hn
  · rename_i ht
    exact h (by simpa using ht)

theorem ending_handle {handler} (h : P r.ending) (hn : ∀ v x, P (handler v x).ending) :
    P (r.handle handler).ending := by
  unfold handle
  split
  · exact hn _ _
  · exact h

theorem ending_finish {finalizer} (h : P r.ending) (hn : ∀ x, P (finalizer x).ending) :
    P (r.finish finalizer).ending := by
  unfold finish
  split
  · exact h
  · exact h
  · dsimp only
    split
    · exact h
    · exact hn _

theorem ending_given {α} {c : Except ν α × σ} {next} (h : ∀ v, P (.threw v))
    (hn : ∀ a x, P (next a x).ending) : P (given c next).ending := by
  unfold given
  split
  · exact hn _ _
  · exact h _

theorem ending_rounds {round} (he : P .exhausted) (h : ∀ x, P (round x).ending) (n : Nat)
    (x : σ) : P (rounds round n x).ending := by
  induction n generalizing x with
  | zero => exact he
  | succ n ih => exact ending_andThen (h x) ih

theorem ending_elements {next : ν → σ → Except ν (Option ν) × σ} {round}
    (he : P .exhausted) (hn : P .normal) (ht : ∀ v, P (.threw v)) (h : ∀ x, P (round x).ending) (n : Nat)
    (cursor : ν) (x : σ) : P (elements next round n cursor x).ending := by
  induction n generalizing cursor x with
  | zero => exact he
  | succ n ih =>
      refine ending_given ht fun cursor? y => ?_
      cases cursor? with
      | none => exact hn
      | some cursor => exact ending_andThen (h y) (ih cursor)

end Outcome

section

variable {σ : Type u} {ν : Type v} {A : Actions σ ν} {n : Nat}

theorem execList_append (ts us : List Tree) (x : σ) :
    execList A n (ts ++ us) x = (execList A n ts x).andThen (execList A n us) := by
  induction ts generalizing x with
  | nil => rfl
  | cons t ts ih =>
      simp only [execList, Outcome.andThen_assoc]
      exact congrArg _ (funext ih)

theorem execList_singleton (t : Tree) (x : σ) : execList A n [t] x = exec A n [] t x := by
  rw [execList, show execList A n [] = Outcome.done from rfl, Outcome.andThen_done]

end

/-! ## Who continues a loop -/

section

open JvmLift.Tree (continues continuesIn continuesBlock continuesArms continuesClauses)

/-- No `continue` is left for the loop around a statement, where `nested` says that another loop is
between. -/
def Ending.Passes {ν : Type v} (name : Option String) (nested : Bool) : Ending ν → Prop
  | .continued none => nested = true
  | .continued (some n) => (some n == name) = false
  | _ => True

variable {σ : Type u} {ν : Type v} {A : Actions σ ν} {n : Nat} {name : Option String} {nested : Bool}

variable {own : List String}

theorem Ending.Passes.not_resumes {e : Ending ν} (h : e.Passes name false) (hown : ∀ label ∈ own, name = some label) :
    e.resumes own = false := by
  cases e with
  | continued label =>
      cases label with
      | none => cases h
      | some m =>
          suffices m ∉ own by simpa [Ending.resumes] using this
          intro hm
          simp [Ending.Passes, hown m hm] at h
  | _ => rfl

theorem Ending.Passes.outside {e : Ending ν} (h : e.Passes name true) (hr : e.resumes own = false) :
    e.Passes name nested := by
  cases e with
  | continued label =>
      cases label with
      | none => cases hr
      | some m => exact h
  | _ => trivial

theorem passes_simple (s : Located) (x : σ) : (A.simple s x).ending.Passes name nested := by
  unfold Actions.simple
  split <;> trivial

theorem passes_declaration (v : LocalVar) (init : Option Expr) (x : σ) :
    (A.declaration v init x).ending.Passes name nested :=
  Outcome.ending_given (fun _ => trivial) fun _ _ => trivial

theorem passes_part (t : Option Tree) (x : σ) : (A.part t x).ending.Passes name nested := by
  unfold Actions.part
  split
  · trivial
  · exact passes_simple _ _
  · exact passes_declaration _ _ _
  · trivial

theorem passes_test (e : Expr) (x : σ) : (A.test e x).ending.Passes name nested := by
  refine Outcome.ending_given (fun _ => trivial) fun b y => ?_
  cases b <;> trivial

theorem passes_round {r : Outcome σ ν} (h : r.ending.Passes name true) :
    (r.take (·.resumes own)).ending.Passes name nested :=
  Outcome.ending_take h.outside trivial

theorem passes_take {r : Outcome σ ν} (h : r.ending.Passes name nested) (taken : Ending ν → Bool) :
    (r.take taken).ending.Passes name nested :=
  Outcome.ending_take (fun _ => h) trivial

mutual

theorem passes_exec {nested} {t : Tree} (h : continues name nested t = false) (own : List String)
    (x : σ) : (exec A n own t x).ending.Passes name nested := by
  have hthrow : ∀ v : ν, (Ending.threw v).Passes name nested := fun _ => trivial
  cases t with
  | simple s => exact passes_simple s x
  | declare v init line => exact passes_declaration v init x
  | ifElse e t b =>
      simp only [continues, Bool.or_eq_false_iff] at h
      refine Outcome.ending_given hthrow fun c y => ?_
      cases c with
      | true => exact passes_execList h.1 y
      | false => exact passes_execBlock h.2 y
  | whileLoop e b =>
      simp only [continues] at h
      refine passes_take (Outcome.ending_rounds trivial (fun y => ?_) n x) _
      exact Outcome.ending_andThen (passes_test e y) fun z => passes_round (passes_execList h z)
  | doWhile b e =>
      simp only [continues] at h
      refine passes_take (Outcome.ending_rounds trivial (fun y => ?_) n x) _
      exact Outcome.ending_andThen (passes_round (passes_execList h y)) (passes_test e)
  | forLoop init e update b =>
      simp only [continues] at h
      refine Outcome.ending_andThen (passes_part init x) fun y => ?_
      refine passes_take (Outcome.ending_rounds trivial (fun z => ?_) n y) _
      refine Outcome.ending_andThen (passes_test e z) fun w => ?_
      exact Outcome.ending_andThen (passes_round (passes_execList h w)) (passes_part update)
  | forEach v e b =>
      simp only [continues] at h
      refine Outcome.ending_given hthrow fun c y => Outcome.ending_given hthrow fun cursor z => ?_
      refine passes_take (Outcome.ending_elements trivial trivial hthrow (fun w => ?_) n cursor z) _
      exact passes_round (passes_execList h w)
  | switch k e arms =>
      simp only [continues] at h
      exact Outcome.ending_given hthrow fun v y => passes_take (passes_execArms h _ y) _
  | tryCatch shape b clauses cleanup =>
      simp only [continues, Bool.or_eq_false_iff] at h
      obtain ⟨⟨hb, hclauses⟩, hcleanup⟩ := h
      refine Outcome.ending_finish ?_ fun y => passes_execBlock hcleanup y
      exact Outcome.ending_handle (passes_execList hb x) fun v y => passes_execClauses hclauses v y
  | synchronized e b =>
      simp only [continues] at h
      refine Outcome.ending_given hthrow fun v y => Outcome.ending_given hthrow fun _ z => ?_
      exact Outcome.ending_finish (passes_execList h z) fun w => Outcome.ending_given hthrow fun _ _ => trivial
  | labeled label b =>
      simp only [continues] at h
      exact passes_take (passes_exec h _ x) _
  | breakTo label => trivial
  | continueTo label =>
      cases label with
      | none =>
          have hnested : nested = true := by simpa [continues] using h
          exact hnested
      | some m => exact h
  | label text | goto text | comment text => trivial

theorem passes_execBlock {nested b}
    (h : continuesBlock name nested b = false) (x : σ) : (execBlock A n b x).ending.Passes name nested := by
  cases b with
  | none => trivial
  | some ts =>
      simp only [continuesBlock] at h
      exact passes_execList h x

theorem passes_execList {nested ts} (h : continuesIn name nested ts = false)
    (x : σ) : (execList A n ts x).ending.Passes name nested := by
  cases ts with
  | nil => trivial
  | cons t ts =>
      simp only [continuesIn, Bool.or_eq_false_iff] at h
      exact Outcome.ending_andThen (passes_exec h.1 [] x) fun y => passes_execList h.2 y

theorem passes_execArms {nested arms} (h : continuesArms name nested arms = false) (skip : Nat) (x : σ) :
    (execArms A n arms skip x).ending.Passes name nested := by
  cases arms with
  | nil => trivial
  | cons arm rest =>
      obtain ⟨arm, b⟩ := arm
      simp only [continuesArms, Bool.or_eq_false_iff] at h
      cases skip with
      | succ skip => exact passes_execArms h.2 skip x
      | zero =>
          refine Outcome.ending_andThen (passes_execList h.1 x) fun y => ?_
          split
          · exact passes_execArms h.2 0 y
          · trivial

theorem passes_execClauses {nested clauses} (h : continuesClauses name nested clauses = false) (v : ν) (x : σ) :
    (execClauses A n clauses v x).ending.Passes name nested := by
  cases clauses with
  | nil => trivial
  | cons clause rest =>
      obtain ⟨clause, b⟩ := clause
      simp only [continuesClauses, Bool.or_eq_false_iff] at h
      unfold execClauses
      split
      · exact passes_execList h.1 _
      · exact passes_execClauses h.2 v x

end

end

end JvmLift.Source

import JvmLift.Proofs.Meaning.Values
import JvmLift.Proofs.Tree.Vars

/-!
# What variables hold

A state is what variables hold, and the rest, which expressions may read and change too. They depend on no variable
that they do not name, and set none.
-/
namespace JvmLift

universe u v

variable {ν τ : Type u}

/-- What is computed depends on no other variables. -/
def DependsOn {α : Type v} (vs : List LocalVar) (f : (Place → ν) → α) : Prop :=
  ∀ vars vars', (∀ v ∈ vs, vars v.place = vars' v.place) → f vars = f vars'

structure Memory (ν τ : Type u) where
  vars : Place → ν
  rest : τ

variable {v w : LocalVar}

namespace Memory

def set (x : Memory ν τ) (v : LocalVar) (d : ν) : Memory ν τ :=
  { x with vars := fun p => if p = v.place then d else x.vars p }

def lift {α : Type v} (f : τ → α × τ) (x : Memory ν τ) : α × Memory ν τ :=
  ((f x.rest).1, { x with rest := (f x.rest).2 })

/-- Works on the rest of the state and sets a variable, unless something is thrown. -/
def assign (v : LocalVar) (f : τ → Except ν ν × τ) (x : Memory ν τ) : Except ν Unit × Memory ν τ :=
  match f x.rest with
  | (.ok d, rest) => (.ok (), { x with rest }.set v d)
  | (.error d, rest) => (.error d, { x with rest })

variable (x : Memory ν τ)

@[simp] theorem set_vars_self (v : LocalVar) (d : ν) : (x.set v d).vars v.place = d := if_pos rfl

theorem set_congr (h : v.place = w.place) (d : ν) : x.set v d = x.set w d := by
  simp only [set, h]

theorem set_vars_of_ne (d : ν) {p} (h : p ≠ v.place) : (x.set v d).vars p = x.vars p := if_neg h

theorem set_comm (h : v.place ≠ w.place) (d d' : ν) : (x.set v d).set w d' = (x.set w d').set v d := by
  simp only [set]
  grind

end Memory

/-! ## States that differ in some variables -/

/-- The states differ at most in what the variables `P` hold. -/
structure Memory.Outside (P : List Place) (x y : Memory ν τ) : Prop where
  rest : x.rest = y.rest
  outside : ∀ p, p ∉ P → x.vars p = y.vars p

theorem Memory.Outside.refl (P : List Place) (x : Memory ν τ) : x.Outside P x := ⟨rfl, fun _ _ => rfl⟩

variable {P : List Place} {x y : Memory ν τ}

theorem Memory.Outside.trans {z} (h : x.Outside P y) (h' : y.Outside P z) : x.Outside P z :=
  ⟨h.rest.trans h'.rest, fun p hp => (h.outside p hp).trans (h'.outside p hp)⟩

theorem Memory.Outside.set (h : x.Outside P y) (hv : v.place ∈ P) (d : ν) : (x.set v d).Outside P y :=
  ⟨h.rest, fun p hp => by rw [set_vars_of_ne _ _ (by rintro rfl; exact hp hv), h.outside p hp]⟩

theorem Memory.Outside.withRest (h : x.Outside P y) (rest : τ) :
    Outside P ({ x with rest } : Memory ν τ) { y with rest } := ⟨rfl, h.outside⟩

/-- Besides, the variables `Q` hold what `c` says. -/
structure Memory.Agree (P Q : List Place) (c : Place → ν) (x y : Memory ν τ) : Prop extends
    Memory.Outside P x y where
  fixed : ∀ p ∈ Q, x.vars p = c p

namespace Memory.Agree

variable {P Q : List Place} {c : Place → ν} {x y : Memory ν τ}

variable (h : x.Agree P Q c y)

include h

theorem set (hv : v.place ∉ Q) {d d'} (hd : v.place ∉ P → d = d') : (x.set v d).Agree P Q c (y.set v d') where
  rest := h.rest
  outside p hp := by
    by_cases hpv : p = v.place
    · subst hpv
      simpa using hd hp
    · rw [set_vars_of_ne _ _ hpv, set_vars_of_ne _ _ hpv, h.outside p hp]
  fixed p hp := by rw [set_vars_of_ne _ _ (fun hpv => hv (hpv ▸ hp)), h.fixed p hp]

theorem withRest (rest : τ) :
    Agree P Q c ({ x with rest } : Memory ν τ) { y with rest } := ⟨h.toOutside.withRest rest, h.fixed⟩

theorem reads {vs : List LocalVar} (hvs : ∀ v ∈ vs, v.place ∉ P) :
    ∀ v ∈ vs, x.vars v.place = y.vars v.place := fun v hv => h.outside _ (hvs v hv)

theorem lift {α} {f g : τ → α × τ} (hfg : f = g) :
    (x.lift f).1 = (y.lift g).1 ∧ (x.lift f).2.Agree P Q c (y.lift g).2 := by
  subst hfg
  simp only [Memory.lift, h.rest]
  exact ⟨trivial, h.withRest _⟩

theorem assign (hv : v.place ∉ Q) {f g} (hfg : f = g) :
    (x.assign v f).1 = (y.assign v g).1 ∧ (x.assign v f).2.Agree P Q c (y.assign v g).2 := by
  subst hfg
  simp only [Memory.assign, h.rest]
  split
  · exact ⟨rfl, (h.withRest _).set hv fun _ => rfl⟩
  · exact ⟨rfl, h.withRest _⟩

end Memory.Agree

end JvmLift

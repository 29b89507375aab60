import JvmLift.Proofs.Hierarchy.Bounds

/-!
# Answers do not depend on earlier questions

A resolver that remembers classes it has looked up, found or not, answers every question as one that has not been
asked anything.
-/
namespace JvmLift.Resolver

open List

def Agrees (r r' : Resolver) : Prop := ∀ name, r.find? name = r'.find? name

/-! ## Names of classes -/

def names (r : Resolver) : List String := (r.current.map (·.1)).toList ++ r.loaded.map (·.1)

theorem length_names_le (r : Resolver) : r.names.length ≤ r.size := by
  unfold names size
  cases r.current <;> simp

theorem mem_names_of_find {r : Resolver} {name c} (h : r.find? name = some c) : name ∈ r.names := by
  have hloaded (h : (r.loaded.lookup name).join = some c) : name ∈ r.loaded.map (·.1) := by
    obtain ⟨found, hfound, -⟩ := Option.bind_eq_some_iff.mp h
    obtain ⟨before, after, heq, -⟩ := lookup_eq_some_iff.mp hfound
    simp [heq]
  unfold find? at h
  unfold names
  split at h
  · split at h
    · simp [*]
    · exact mem_append_right _ (hloaded h)
  · exact mem_append_right _ (hloaded h)

theorem bounded_find (r : Resolver) : Inquiry.Bounded r.find? r.size :=
  ⟨r.names, r.length_names_le, fun _ _ => mem_names_of_find⟩

/-! ## Answers -/

section

variable {α : Type} {r r' : Resolver} {q : Nat → Inquiry α}

variable (h : Agrees r r')

include h

theorem Agrees.alike (hq : Inquiry.Steady q) : Inquiry.Alike r.find? (q r.size) (q r'.size) := by
  have hbounded : Inquiry.Bounded r.find? r'.size := (funext h : r.find? = r'.find?) ▸ r'.bounded_find
  rcases Nat.le_total r.size r'.size with hle | hle
  · exact hq _ _ _ r.bounded_find hle
  · exact (hq _ _ _ hbounded hle).symm

theorem Agrees.answer (hq : Inquiry.Steady q) : r.answer (q r.size) = r'.answer (q r'.size) := by
  rw [Resolver.answer, (h.alike hq).answer, Resolver.answer, funext h]

theorem Agrees.lookups (hq : Inquiry.Steady q) : r.lookups (q r.size) = r'.lookups (q r'.size) := by
  rw [Resolver.lookups, (h.alike hq).lookups, Resolver.lookups, funext h]

theorem Agrees.isAssignable (source target : String) : r.isAssignable source target = r'.isAssignable source target :=
  h.answer (Inquiry.steady_isAssignable source target)

theorem Agrees.overloads (owner name : String) (arity : Nat) :
    r.overloads owner name arity = r'.overloads owner name arity :=
  h.answer (Inquiry.steady_overloads owner name arity)

theorem Agrees.switchMap? (holder member : String) : r.switchMap? holder member = r'.switchMap? holder member :=
  h.answer (Inquiry.steady_const (.switchMap holder member))

end

end JvmLift.Resolver

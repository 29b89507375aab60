import JvmLift.Proofs.Hierarchy.Session
import Mathlib.Data.List.Chain
import Mathlib.Logic.Relation

/-!
# Assignability is reachability

A search upwards finds a class exactly if steps to superclasses and interfaces lead to it, also where these go in
circles or to classes that cannot be found.
-/
namespace JvmLift

open List

open Relation (ReflTransGen)

namespace Inquiry

variable {classes : String → Option ClassFile} {names : List String} {target name parent : String} {n : Nat}

def Super (classes : String → Option ClassFile) (name parent : String) : Prop :=
  ∃ c, classes name = some c ∧ c.superName = .ok (some parent)

/-- The superclass or, where all of them can be named, an interface of a class that can be found. -/
def Parent (classes : String → Option ClassFile) (name parent : String) : Prop :=
  Super classes name parent ∨
    ∃ c interfaces, classes name = some c ∧ c.interfaceNames = .ok interfaces ∧ parent ∈ interfaces

theorem super?_eq_some {c : ClassFile} : c.super? = some parent ↔ c.superName = .ok (some parent) := by
  unfold ClassFile.super?
  cases c.superName <;> simp [Except.toOption]

theorem mem_parents : parent ∈ ((classes name).map (·.parents)).getD [] ↔ Parent classes name parent := by
  cases hc : classes name with
  | none => simp [Parent, Super, hc]
  | some c =>
      cases hi : c.interfaceNames <;>
        simp [Parent, Super, hc, hi, ClassFile.parents, super?_eq_some, Except.toOption, or_comm]

/-! ## Searches -/

/-- What a search from some classes makes of `s`: the target is found only if they lead to it, else
all that they lead to is seen. -/
structure Explores (classes : String → Option ClassFile) (target : String) (starts : List String)
    (s s' : Search) : Prop where
  seen : s.seen ⊆ s'.seen
  found : s.found = true → s'.found = true
  sound : s'.found = true → s.found = true ∨ ∃ p ∈ starts, ReflTransGen (Parent classes) p target
  starts : s'.found = false → ∀ p ∈ starts, p ∈ s'.seen
  closed : s'.found = false → ∀ x ∈ s'.seen, x ∈ s.seen ∨ x ≠ target ∧ ∀ y, Parent classes x y → y ∈ s'.seen

namespace Explores

variable {s s1 s2 : Search} {ps : List String}

theorem refl (h : s.found = false → ∀ p ∈ ps, p ∈ s.seen) : Explores classes target ps s s :=
  ⟨List.Subset.refl _, id, .inl, h, fun _ _ => .inl⟩

theorem cons (h : Explores classes target [name] s s1) (h' : Explores classes target ps s1 s2) :
    Explores classes target (name :: ps) s s2 := by
  have hfound (h2 : s2.found = false) : s1.found = false := by
    rw [← Bool.not_eq_true] at h2 ⊢
    exact mt h'.found h2
  refine ⟨List.Subset.trans h.seen h'.seen, h'.found ∘ h.found, fun hf => ?_, fun hf => ?_, fun hf x hx => ?_⟩
  · rcases h'.sound hf with hf | ⟨p, hp, hr⟩
    · exact (h.sound hf).imp_right fun ⟨p, hp, hr⟩ => ⟨p, mem_cons.mpr (.inl (mem_singleton.mp hp)), hr⟩
    · exact .inr ⟨p, mem_cons_of_mem _ hp, hr⟩
  · exact forall_mem_cons.mpr ⟨h'.seen (h.starts (hfound hf) name (mem_singleton_self _)), h'.starts hf⟩
  · exact (h'.closed hf x hx).elim
      (fun hx => (h.closed (hfound hf) x hx).imp_right (.imp_right fun hy y hxy => h'.seen (hy y hxy))) .inr

theorem step (hfound : s.found = false) (hne : name ≠ target) (hps : ∀ p, p ∈ ps ↔ Parent classes name p)
    (h : Explores classes target ps { s with seen := name :: s.seen } s1) : Explores classes target [name] s s1 where
  seen := List.Subset.trans (subset_cons_self _ _) h.seen
  found hf := h.found hf
  sound hf := .inr ⟨name, mem_singleton_self _, by
    obtain hf | ⟨p, hp, hr⟩ := h.sound hf
    · exact absurd (hfound.symm.trans hf) (by decide)
    · exact .head ((hps p).mp hp) hr⟩
  starts _ := forall_mem_singleton.mpr (h.seen mem_cons_self)
  closed hf x hx := by
    rcases h.closed hf x hx with hx | hx
    · rcases mem_cons.mp hx with rfl | hx
      · exact .inr ⟨hne, fun y hy => h.starts hf y ((hps y).mpr hy)⟩
      · exact .inl hx
    · exact .inr hx

end Explores

theorem explores_search (hnames : ∀ name c, classes name = some c → name ∈ names) {s}
    (hn : unmet names s.seen < n) : Explores classes target [name] s ((search target n s name).answer classes) := by
  induction n generalizing s name with
  | zero => omega
  | succ n ih =>
      have hfold (ps : List String) (s : Search) (hn : ps ≠ [] → unmet names s.seen < n) :
          Explores classes target ps s ((ps.foldlM (search target n) s).answer classes) := by
        induction ps generalizing s with
        | nil => exact .refl (by simp)
        | cons p ps ihps =>
            have hp : Explores classes target [p] s _ := ih (hn (cons_ne_nil _ _))
            rw [foldlM_cons, answer_bind]
            exact hp.cons (ihps _ fun _ => Nat.lt_of_le_of_lt (unmet_le hp.seen) (hn (cons_ne_nil _ _)))
      rw [search]
      split
      · exact .refl fun hf => by simp_all
      · rename_i hfound
        split
        · rename_i htarget
          exact ⟨List.Subset.refl _, fun _ => rfl, fun _ => .inr ⟨name, mem_singleton_self _, htarget ▸ .refl⟩,
            fun h => (by cases h), fun h => (by cases h)⟩
        · rename_i hne
          split
          · exact .refl fun _ => by simp_all
          · rename_i hseen
            refine .step (by simpa using hfound) hne (fun p => mem_reverse.trans mem_parents) (hfold _ _ fun hps => ?_)
            -- A class with parents was found, so there is one name less to go.
            cases hc : classes name with
            | none => simp [hc] at hps
            | some c =>
                have hlt := unmet_cons_lt (hnames name c hc) (by simpa using hseen)
                dsimp only
                omega

theorem isAssignable_iff {limit} (h : Bounded classes limit) (source target : String) :
    (isAssignable limit source target).answer classes = true ↔
      source = target ∨ target = rootName ∨ ReflTransGen (Parent classes) source target := by
  rw [isAssignable, answer_bind, assignSearch]
  split
  · rename_i htrivial
    exact iff_of_true rfl (htrivial.imp_right .inl)
  · rename_i htrivial
    obtain ⟨names, hlength, hnames⟩ := h
    have hunmet : unmet names [] ≤ names.length := countP_le_length
    have hsearch : Explores classes target [source] ⟨[], false⟩
        ((search target (limit + 1) ⟨[], false⟩ source).answer classes) :=
      explores_search hnames (by dsimp only; omega)
    rw [← or_assoc, or_iff_right htrivial]
    constructor
    · intro hf
      obtain hf | ⟨p, hp, hr⟩ := hsearch.sound hf
      · cases hf
      · exact mem_singleton.mp hp ▸ hr
    · intro hr
      refine Bool.not_eq_false _ |>.mp fun hf => ?_
      have hall : ∀ x, ReflTransGen (Parent classes) source x →
          x ∈ ((search target (limit + 1) ⟨[], false⟩ source).answer classes).seen := by
        intro x hx
        induction hx with
        | refl => exact hsearch.starts hf _ (mem_singleton_self _)
        | tail _ hxy ih => exact ((hsearch.closed hf _ ih).resolve_left (by simp)).2 _ hxy
      exact ((hsearch.closed hf _ (hall _ hr)).resolve_left (by simp)).1 rfl

/-! ## Chains -/

/-- Superclasses one after the other, none twice. -/
structure IsAscent (classes : String → Option ClassFile) (name last : String) (chain : List String) : Prop where
  head : chain.head? = some name
  last : chain.getLast? = some last
  steps : chain.IsChain (Super classes)
  nodup : chain.Nodup

theorem ascent_chainFrom (hnames : ∀ name c, classes name = some c → name ∈ names) {chain met}
    {last : String} (h : IsAscent classes name last chain) (hmet : met ⊆ chain) (hnew : last ∉ met)
    (hn : unmet names met < n) : ∃ last', IsAscent classes name last' ((chainFrom n chain last).answer classes) ∧
      ∀ next, Super classes last' next → next ∈ (chainFrom n chain last).answer classes := by
  induction n generalizing chain met last with
  | zero => omega
  | succ n ih =>
      have hlast : last ∈ chain := mem_of_getLast? h.last
      have hsuper : (superName last).answer classes = (classes last).bind (·.super?) := rfl
      have hparent (next : String) : Super classes last next ↔ (classes last).bind (·.super?) = some next := by
        simp [Super, Option.bind_eq_some_iff, super?_eq_some]
      rw [chainFrom, answer_bind, hsuper]
      cases hs : (classes last).bind (·.super?) with
      | none => exact ⟨last, h, fun next hnext => by simp [(hparent next).mp hnext] at hs⟩
      | some next =>
          obtain ⟨c, hc, -⟩ := Option.bind_eq_some_iff.mp hs
          have hlt := unmet_cons_lt (hnames last c hc) hnew
          dsimp only
          split
          · rename_i hin
            refine ⟨last, h, fun next' hnext' => ?_⟩
            obtain rfl : next = next' := Option.some.inj (hs.symm.trans ((hparent next').mp hnext'))
            exact contains_iff_mem.mp hin
          · rename_i hin
            have hin : next ∉ chain := by simpa using hin
            have hmore : last :: met ⊆ chain ++ [next] :=
              cons_subset.mpr ⟨by simp [hlast], fun x hx => by simp [hmet hx]⟩
            refine ih ⟨?_, by simp, ?_, ?_⟩ hmore ?_ (by omega)
            · rw [head?_append, h.head]
              rfl
            · refine isChain_append.mpr ⟨h.steps, .singleton next, ?_⟩
              simpa [h.last] using (hparent next).mpr hs
            · refine nodup_append.mpr ⟨h.nodup, by simp, ?_⟩
              rintro x hx _ hx' rfl
              exact hin (mem_singleton.mp hx' ▸ hx)
            · rw [mem_cons, not_or]
              exact ⟨fun heq => hin (heq ▸ hlast), fun hx => hin (hmet hx)⟩

theorem ascent_superChain {limit} (h : Bounded classes limit) (name : String) :
    ∃ last, IsAscent classes name last ((superChain limit name).answer classes) ∧
      ∀ next, Super classes last next → next ∈ (superChain limit name).answer classes := by
  obtain ⟨names, hlength, hnames⟩ := h
  have hunmet : unmet names [] ≤ names.length := countP_le_length
  exact ascent_chainFrom hnames ⟨rfl, rfl, .singleton _, by simp⟩ (nil_subset _) not_mem_nil (by omega)

end Inquiry

/-- Whatever was asked before, a class can be assigned to itself, to the root class and to all that steps upwards
lead to. Its chain begins with it and goes from superclass to superclass, and the last one has none that can be
found and is not in the chain. -/
theorem Session.hierarchy_ofPath {ρ : Type} (path : ClassPath) (current : Option ClassFile) (qs : List (Query ρ))
    (source target : String) :
    (∃ b, (((ofPath path current).askAll qs).2.ask (.isAssignable source target : Query ρ)).1 = .bool b ∧
      (b = true ↔ source = target ∨ target = "java/lang/Object" ∨
        ReflTransGen (Inquiry.Parent (Resolver.ofPath path current).find?) source target)) ∧
    ∃ chain last, (((ofPath path current).askAll qs).2.ask (.superChain source : Query ρ)).1 = .names chain ∧
      Inquiry.IsAscent (Resolver.ofPath path current).find? source last chain ∧
      ∀ next, Inquiry.Super (Resolver.ofPath path current).find? last next → next ∈ chain := by
  obtain ⟨-, hrecalls⟩ := (recalls_ofPath path current).askAll qs
  have hbounded := Resolver.bounded_find_ofPath path current
  have hask (q : Query ρ) : (((ofPath path current).askAll qs).2.ask q).1 =
      (q.inquiry path.limit).answer (Resolver.ofPath path current).find? := by
    rw [ask, hrecalls.path_eq]
    exact (hrecalls.perform _).1
  simp only [hask, Query.inquiry, Functor.map]
  obtain ⟨last, hascent, hend⟩ := Inquiry.ascent_superChain hbounded source
  exact ⟨⟨_, Inquiry.answer_bind _ _, Inquiry.isAssignable_iff hbounded source target⟩,
    _, last, Inquiry.answer_bind _ _, hascent, hend⟩

end JvmLift

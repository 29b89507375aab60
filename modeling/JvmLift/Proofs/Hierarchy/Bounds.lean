import JvmLift.Hierarchy.Query

/-!
# Bounds of questions are never reached

A bound on the number of classes that can be found is never reached, since a chain and a search only go on from
classes that were found and not met before.
-/
namespace JvmLift

open List

variable {α β ρ : Type} {classes : String → Option ClassFile}

namespace Inquiry

/-! ## Answers and lookups -/

theorem answer_bind (q : Inquiry α) (f : α → Inquiry β) :
    (q >>= f).answer classes = (f (q.answer classes)).answer classes := by
  induction q with
  | done a => rfl
  | look name next ih => exact ih (classes name)

theorem lookups_bind (q : Inquiry α) (f : α → Inquiry β) :
    (q >>= f).lookups classes = q.lookups classes ++ (f (q.answer classes)).lookups classes := by
  induction q with
  | done a => rfl
  | look name next ih => exact congrArg (name :: ·) (ih (classes name))

theorem answer_foldlM (f : β → α → Inquiry β) (as : List α) (b : β) :
    (as.foldlM f b).answer classes = as.foldl (fun b a => (f b a).answer classes) b := by
  induction as generalizing b with
  | nil => rfl
  | cons a as ih => rw [foldlM_cons, answer_bind, ih, foldl_cons]

structure Alike (classes : String → Option ClassFile) (q q' : Inquiry α) : Prop where
  answer : q.answer classes = q'.answer classes
  lookups : q.lookups classes = q'.lookups classes

namespace Alike

variable {q q' : Inquiry α} {f f' : α → Inquiry β}

theorem refl (q : Inquiry α) : Alike classes q q := ⟨rfl, rfl⟩

theorem symm (h : Alike classes q q') : Alike classes q' q := ⟨h.answer.symm, h.lookups.symm⟩

theorem bind (h : Alike classes q q') (hf : Alike classes (f (q.answer classes)) (f' (q.answer classes))) :
    Alike classes (q >>= f) (q' >>= f') where
  answer := by rw [answer_bind, answer_bind, ← h.answer, hf.answer]
  lookups := by rw [lookups_bind, lookups_bind, ← h.answer, h.lookups, hf.lookups]

end Alike

/-! ## Names that have not been met -/

def unmet (names met : List String) : Nat := names.countP fun n => !met.contains n

theorem unmet_le {names met met'} (h : met ⊆ met') : unmet names met' ≤ unmet names met :=
  countP_mono_left fun n _ hn => by
    simp only [Bool.not_eq_true', contains_eq_mem, decide_eq_false_iff_not] at hn ⊢
    exact fun hmet => hn (h hmet)

variable {name : String}

theorem unmet_cons_lt {names met} (hname : name ∈ names)
    (hnew : name ∉ met) : unmet names (name :: met) < unmet names met := by
  obtain ⟨before, after, hnames⟩ := append_of_mem hname
  have hmono (l : List String) :
      l.countP (fun n => !(name :: met).contains n) ≤ l.countP (fun n => !met.contains n) :=
    countP_mono_left fun n _ hn => by simp_all
  have hbefore := hmono before
  have hafter := hmono after
  have hin : (name :: met).contains name = true := by simp
  have hout : met.contains name = false := by simpa using hnew
  simp only [unmet, hnames, countP_append, countP_cons, hin, hout, Bool.not_true, Bool.not_false,
    Bool.false_eq_true, if_false, if_true]
  omega

/-! ## Chains and searches -/

section

variable {names : List String} (hnames : ∀ name c, classes name = some c → name ∈ names)
include hnames

/-- A chain that has more steps left than there are names it has not met does not depend on their
number. -/
theorem alike_chainFrom {n n' chain met last} (hlast : last ∈ chain)
    (hmet : met ⊆ chain) (hnew : last ∉ met) (hn : unmet names met < n) (hn' : unmet names met < n') :
    Alike classes (chainFrom n chain last) (chainFrom n' chain last) := by
  induction n generalizing n' chain met last with
  | zero => omega
  | succ n ih =>
      obtain ⟨n', rfl⟩ : ∃ k, n' = k + 1 := ⟨n' - 1, by omega⟩
      refine (Alike.refl (superName last)).bind ?_
      cases hs : (superName last).answer classes with
      | none => exact .refl _
      | some next =>
          obtain ⟨c, hc, -⟩ := Option.bind_eq_some_iff.mp hs
          have hlt := unmet_cons_lt (hnames last c hc) hnew
          dsimp only
          split
          · exact .refl _
          · rename_i hnext
            have hnext : next ∉ chain := by simpa using hnext
            have hmet' : last :: met ⊆ chain ++ [next] :=
              cons_subset.mpr ⟨by simp [hlast], fun x hx => by simp [hmet hx]⟩
            refine ih (by simp) hmet' ?_ (by omega) (by omega)
            rw [mem_cons, not_or]
            exact ⟨fun heq => hnext (heq ▸ hlast), fun hx => hnext (hmet hx)⟩

omit hnames in
theorem seen_subset_search {target n s} : s.seen ⊆ ((search target n s name).answer classes).seen := by
  induction n generalizing s name with
  | zero => exact List.Subset.refl _
  | succ n ih =>
      have hfold (ps : List String) (s : Search) :
          s.seen ⊆ (ps.foldl (fun s p => (search target n s p).answer classes) s).seen := by
        induction ps generalizing s with
        | nil => exact List.Subset.refl _
        | cons p ps ihps => exact List.Subset.trans ih (ihps _)
      rw [search]
      split
      · exact List.Subset.refl _
      · split
        · exact List.Subset.refl _
        · split
          · exact List.Subset.refl _
          · rw [answer_bind, answer_foldlM]
            exact List.Subset.trans (subset_cons_self _ _) (hfold _ { s with seen := name :: s.seen })

/-- A search that may go deeper than there are names it has not seen does not depend on how deep it
may go. -/
theorem alike_search {target n n' s} (hn : unmet names s.seen < n) (hn' : unmet names s.seen < n') :
    Alike classes (search target n s name) (search target n' s name) := by
  induction n generalizing n' s name with
  | zero => omega
  | succ n ih =>
      have hfold {n' : Nat} (ps : List String) (s : Search)
          (hn : ps ≠ [] → unmet names s.seen < n ∧ unmet names s.seen < n') :
          Alike classes (ps.foldlM (search target n) s) (ps.foldlM (search target n') s) := by
        induction ps generalizing s with
        | nil => exact .refl _
        | cons p ps ihps =>
            obtain ⟨hn, hn'⟩ := hn (cons_ne_nil _ _)
            have hseen : unmet names ((search target n s p).answer classes).seen ≤ unmet names s.seen :=
              unmet_le seen_subset_search
            exact (ih hn hn').bind (ihps _ fun _ => by omega)
      obtain ⟨n', rfl⟩ : ∃ k, n' = k + 1 := ⟨n' - 1, by omega⟩
      rw [search, search]
      split
      · exact .refl _
      · split
        · exact .refl _
        · split
          · exact .refl _
          · rename_i hseen
            have hseen : name ∉ s.seen := by simpa using hseen
            refine (Alike.refl (find name)).bind (hfold _ _ fun hps => ?_)
            -- A class with parents was found, so there is one name less to go.
            cases hc : classes name with
            | none => simp [find, answer, hc] at hps
            | some c =>
                have hlt := unmet_cons_lt (hnames name c hc) hseen
                dsimp only
                omega

end

/-! ## Bounds -/

def Bounded (classes : String → Option ClassFile) (limit : Nat) : Prop :=
  ∃ names : List String, names.length ≤ limit ∧ ∀ name c, classes name = some c → name ∈ names

def Steady (q : Nat → Inquiry α) : Prop :=
  ∀ classes limit limit', Bounded classes limit → limit ≤ limit' → Alike classes (q limit) (q limit')

theorem steady_const (q : Inquiry α) : Steady fun _ => q := fun _ _ _ _ _ => .refl q

theorem Steady.bind {q} (h : Steady q) (f : α → Inquiry β) : Steady fun limit => q limit >>= f :=
  fun classes limit limit' hb hle => (h classes limit limit' hb hle).bind (.refl _)

theorem steady_superChain (name : String) : Steady fun limit => superChain limit name := by
  intro classes limit limit' hbounded hle
  obtain ⟨names, hlength, hnames⟩ := hbounded
  have hunmet : unmet names [] ≤ names.length := countP_le_length
  exact alike_chainFrom hnames (mem_singleton_self _) (nil_subset _) not_mem_nil
    (by omega) (by omega)

theorem steady_assignSearch (source target : String) : Steady fun limit => assignSearch limit source target := by
  intro classes limit limit' hbounded hle
  obtain ⟨names, hlength, hnames⟩ := hbounded
  have hunmet : unmet names [] ≤ names.length := countP_le_length
  unfold assignSearch
  split
  · exact .refl _
  · exact alike_search hnames (by dsimp only; omega) (by dsimp only; omega)

theorem steady_isAssignable (source target : String) : Steady fun limit => isAssignable limit source target :=
  (steady_assignSearch source target).bind _

theorem steady_overloads (owner name : String) (arity : Nat) : Steady fun limit => overloads limit owner name arity :=
  (steady_superChain owner).bind _

theorem steady_fieldType (owner name : String) : Steady fun limit => fieldType limit owner name :=
  (steady_superChain owner).bind _

end Inquiry

theorem Query.steady_inquiry (q : Query ρ) : Inquiry.Steady fun limit => q.inquiry limit := by
  cases q with
  | withClass name f | superClass name => exact Inquiry.steady_const _
  | superChain name => exact (Inquiry.steady_superChain name).bind _
  | isAssignable source target => exact (Inquiry.steady_isAssignable source target).bind _
  | overloads owner name arity => exact (Inquiry.steady_overloads owner name arity).bind _
  | fieldType owner name => exact (Inquiry.steady_fieldType owner name).bind _
  | switchMap holder member => exact Inquiry.steady_const _

end JvmLift

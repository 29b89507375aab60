import JvmLift.Proofs.Walk.Stages
import Mathlib.Data.Bool.Basic

/-!
# Derivations are unique

At most one rule applies in a state, so a run is the only derivation there is. Layouts that differ in their labels go
through the same states, unless the labels decide where control goes on after a protected region.
-/
namespace JvmLift

@[grind →] theorem Exit.isEnd_of_onlyTarget {x : Exit} {t} (h : x.onlyTarget? = some t) : x.isEnd = false := by
  cases x <;> simp_all [Exit.onlyTarget?, Exit.isEnd]

namespace Walk

variable {l : Layout} {strict : Bool} {scopes : List Enclosing} {b : BlockId} {stop : Option BlockId}
  {entering : Bool} {out o : List Tree} {s s' : State} {reached : Bool}

/-! ## What starts at a block -/

variable {info : Loop}

@[grind →] theorem Plain.not_loopAt (h : Plain l s b) (hat : LoopAt l s b info) : False := by
  cases h.no_loop.symm.trans hat.pending

variable {i : Nat} {plan : TryPlan}

@[grind →] theorem Plain.not_tryAt (h : Plain l s b) (ht : TryAt l s b i plan) : False := by
  cases h.no_try.symm.trans ht.pending

@[grind →] theorem LoopAt.not_tryAt (h : LoopAt l s b info) (ht : TryAt l s b i plan) : False := by
  cases (h.uncovered i plan ht.pending).symm.trans (ht.covers info h.pending)

@[grind →] theorem LoopAt.unique {info'} (h : LoopAt l s b info) (h' : LoopAt l s b info') : info = info' :=
  Option.some.inj (h.pending.symm.trans h'.pending)

@[grind →] theorem TryAt.unique {i' plan'} (h : TryAt l s b i plan)
    (h' : TryAt l s b i' plan') : i = i' ∧ plan = plan' := by
  simpa using h.pending.symm.trans h'.pending

theorem TryAt.mem (h : TryAt l s b i plan) : plan ∈ l.protection.plans :=
  List.mem_of_getElem? (pendingTry_some h.pending).1

/-! ## What a rule writes -/

namespace Region

theorem of_stop (h : Region l strict scopes b (some b) entering out s o reached s') :
    o = out ∧ reached = true ∧ s' = s := by
  cases h <;> grind [Arrives]

theorem of_jump {j} (h : Region l strict scopes b stop false out s o reached s')
    (hb : some b ≠ stop) (hj : findJump b true true scopes = some j) :
    o = out ++ [j.tree] ∧ reached = false ∧ s' = s.useLabel j := by
  cases h <;> grind [Arrives]

theorem of_goto (h : Region l strict scopes b stop false out s o reached s')
    (hb : some b ≠ stop) (hj : findJump b true true scopes = none) (hv : b ∈ s.visited) :
    o = out ++ [.goto (blockLabel b)] ∧ reached = false ∧ s' = s.noteGoto b := by
  cases h <;> grind [Arrives]

variable (h : Region l strict scopes b stop entering out s o reached s') (ha : Arrives scopes b stop entering s)

include h ha

theorem of_skip {past} (hp : skipPast? l b = some past) :
    Region l strict scopes past stop false out s o reached s' := by
  cases h <;> grind [Arrives]

theorem of_outside (hp : skipPast? l b = none) (hb : l.isBlock b = false) : o = out ∧ reached = false ∧ s' = s := by
  cases h <;> grind [Arrives]

theorem of_block (hp : skipPast? l b = none) (hb : l.isBlock b = true) :
    ∃ next o1 s1, Construct l strict scopes b stop out s next o1 s1 ∧ match next with
      | none => o = o1 ∧ reached = false ∧ s' = s1
      | some n => Region l strict scopes n stop false o1 s1 o reached s' := by
  cases h with
  | last _ _ _ hc => exact ⟨none, _, _, hc, rfl, rfl, rfl⟩
  | next _ _ _ hc hr => exact ⟨some _, _, _, hc, hr⟩
  | _ => grind [Arrives]

end Region

namespace Construct

variable {block : Block} {next armStop follow : Option BlockId} (h : Construct l strict scopes b stop out s next o s')

include h

section

variable (hp : Plain l s b) (hb : l.block? b = some block)

include hp hb

theorem of_goes {t} (ht : block.exit.onlyTarget? = some t) :
    next = some t ∧ o = out ++ blockTrees l b block ∧ s' = s.visit b := by
  cases h <;> grind [Exit.onlyTarget?, Exit.isEnd]

theorem of_ends (he : block.exit.isEnd = true) : next = none ∧ o = out ++ blockTrees l b block ∧ s' = s.visit b := by
  cases h <;> grind [Exit.onlyTarget?, Exit.isEnd]

theorem of_oneSided {e taken fall side ends} (he : block.exit = .cond e taken fall) (hne : taken ≠ fall)
    (hf : branchForm l scopes taken fall stop = .oneSided side armStop ends) : ∃ body reached,
      Region l strict scopes (side.arm taken fall) armStop false [] (s.visit b) body reached s' ∧
      next = some (side.rest taken fall) ∧ o = out ++ blockTrees l b block ++ [ifThen (side.test e) body] := by
  cases h <;> grind [Exit.onlyTarget?, Exit.isEnd]

theorem of_twoSided {e taken fall meets} (he : block.exit = .cond e taken fall)
    (hne : taken ≠ fall) (hf : branchForm l scopes taken fall stop = .twoSided armStop meets) :
    ∃ body1 reached1 s1 body2 reached2, Region l strict scopes fall armStop false [] (s.visit b) body1 reached1 s1 ∧
      Region l strict scopes taken armStop false [] s1 body2 reached2 s' ∧
      next = (if meets || reached1 || reached2 then armStop else none) ∧
      o = out ++ blockTrees l b block ++ [ifBoth e.negate body1 body2] := by
  cases h <;> grind [Exit.onlyTarget?, Exit.isEnd]

theorem of_switch {key default cases}
    (he : block.exit = .switch key default cases) (hf : followOf l scopes stop default cases = follow) :
    ∃ arms, Arms l strict (⟨none, follow, s.labelCount + 1⟩ :: scopes) default cases follow
        (entriesOf default cases follow) (s.visit b).takeLabel arms s' ∧ next = follow ∧
      o = out ++ blockTrees l b block ++ [s'.wrap (s.labelCount + 1) (.switch .int key arms)] := by
  cases h <;> grind [Exit.onlyTarget?, Exit.isEnd]

end

theorem of_guarded {test inside follow} (hat : LoopAt l s b info) (hf : l.loopForm info = .guarded test inside follow) :
    ∃ body, Part l strict (inside == b)
    (⟨some b, some follow, s.labelCount + 1⟩ :: scopes) inside none false ((s.openLoop b).takeLabel.visit b) body s' ∧
    next = some follow ∧
    o = out ++ labelOf l b ++ [s'.wrap (s.labelCount + 1) (.whileLoop test (Tree.stripContinue body))] := by
  cases h <;> grind

theorem of_tested {test latch follow} (hat : LoopAt l s b info) (hf : l.loopForm info = .tested latch test follow) :
    ∃ body s1, Part l strict (latch == b) (⟨some latch, some follow, s.labelCount + 1⟩ :: scopes) b
        (some latch) true (s.openLoop b).takeLabel body s1 ∧ next = some follow ∧ s' = s1.visit latch ∧
      o = out ++ [(s1.visit latch).wrap (s.labelCount + 1)
          (.doWhile (Tree.stripContinue (body ++ latchTrees l latch)) test)] := by
  cases h <;> grind

theorem of_endless (hat : LoopAt l s b info) (hf : l.loopForm info = .endless follow) :
    ∃ body reached, Region l strict (⟨some b, follow, s.labelCount + 1⟩ :: scopes) b none true []
    (s.openLoop b).takeLabel body reached s' ∧ next = follow ∧
    o = out ++ [s'.wrap (s.labelCount + 1) (.whileLoop (.boolLit true) (Tree.stripContinue body))] := by
  cases h <;> grind

theorem of_guard {index} (ht : TryAt l s b index plan)
    (hf : l.tryFollow (index :: s.tries) (boundsOf scopes stop) plan = follow) :
    ∃ body reached s1 clauses s2 cleanup s3,
      Region l strict scopes plan.start (follow.or stop) true [] (s.openTry index) body reached s1 ∧
      Clauses l strict scopes (follow.or stop) plan.catches s1 clauses s2 ∧
      Cleanup l strict scopes plan.shape.isSynchronized plan.cleanup s2 cleanup s3 ∧
      next = follow.or (if reached then stop else none) ∧ s' = s3.noteShape plan ∧
      o = tryTrees plan out body clauses cleanup := by
  cases h <;> grind

end Construct

/-! ## Agreement -/

/-- Where control goes on after protected regions does not depend on the labels. -/
def Relabels (l : Layout) (labels : List BlockId) : Prop :=
  ∀ plan ∈ l.protection.plans, ∀ done bounds,
    Layout.tryFollow { l with labels } done bounds plan = l.tryFollow done bounds plan

theorem Plain.relabel (h : Plain l s b) (labels : List BlockId) : Plain { l with labels } s b :=
  ⟨h.no_try, h.no_loop⟩

theorem LoopAt.relabel (h : LoopAt l s b info) (labels : List BlockId) : LoopAt { l with labels } s b info :=
  ⟨h.pending, h.uncovered⟩

theorem TryAt.relabel (h : TryAt l s b i plan) (labels : List BlockId) : TryAt { l with labels } s b i plan :=
  ⟨h.pending, h.covers⟩

variable {labels : List BlockId}

mutual

theorem Region.agrees {a a' scopes b stop entering out out' s o o' r r' s1 s1'}
    (hl : Relabels l labels) (h : Region l a scopes b stop entering out s o r s1)
    (h' : Region { l with labels } a' scopes b stop entering out' s o' r' s1') :
    r = r' ∧ s1 = s1' ∧ (labels = l.labels → out = out' → o = o') := by
  match h with
  | .stop =>
      obtain ⟨rfl, rfl, rfl⟩ := h'.of_stop
      exact ⟨rfl, rfl, fun _ h => h⟩
  | .jump hb hj =>
      obtain ⟨rfl, rfl, rfl⟩ := h'.of_jump hb hj
      exact ⟨rfl, rfl, fun _ h => by rw [h]⟩
  | .goto hb hj hv =>
      obtain ⟨rfl, rfl, rfl⟩ := h'.of_goto hb hj hv
      exact ⟨rfl, rfl, fun _ h => by rw [h]⟩
  | .skip ha hp hr => exact hr.agrees hl (h'.of_skip ha hp)
  | .outside ha hp hb =>
      obtain ⟨rfl, rfl, rfl⟩ := h'.of_outside ha hp hb
      exact ⟨rfl, rfl, fun _ h => h⟩
  | .last ha hp hb hc =>
      obtain ⟨next, o1, s2, hc', hrest⟩ := h'.of_block ha hp hb
      obtain ⟨rfl, rfl, ho⟩ := hc.agrees hl hc'
      obtain ⟨rfl, rfl, rfl⟩ := hrest
      exact ⟨rfl, rfl, ho⟩
  | .next ha hp hb hc hr =>
      obtain ⟨next, o1, s2, hc', hrest⟩ := h'.of_block ha hp hb
      obtain ⟨rfl, rfl, ho⟩ := hc.agrees hl hc'
      obtain ⟨hreach, hs', ho'⟩ := hr.agrees hl hrest
      exact ⟨hreach, hs', fun hlab hout => ho' hlab (ho hlab hout)⟩
termination_by structural h

theorem Construct.agrees {a a' scopes b stop out out' s n n' o o' s1 s1'} (hl : Relabels l labels)
    (h : Construct l a scopes b stop out s n o s1)
    (h' : Construct { l with labels } a' scopes b stop out' s n' o' s1') :
    n = n' ∧ s1 = s1' ∧ (labels = l.labels → out = out' → o = o') := by
  match h with
  | .goes hp hb ht =>
      obtain ⟨rfl, rfl, rfl⟩ := h'.of_goes (hp.relabel labels) hb ht
      exact ⟨rfl, rfl, fun hlab h => by rw [hlab, h]⟩
  | .ends hp hb he =>
      obtain ⟨rfl, rfl, rfl⟩ := h'.of_ends (hp.relabel labels) hb he
      exact ⟨rfl, rfl, fun hlab h => by rw [hlab, h]⟩
  | .oneSided hp hb he hne hf hr _ =>
      obtain ⟨body, reached, hr', rfl, rfl⟩ := h'.of_oneSided (hp.relabel labels) hb he hne hf
      obtain ⟨-, rfl, ho⟩ := hr.agrees hl hr'
      exact ⟨rfl, rfl, fun hlab h => by rw [ho hlab rfl, hlab, h]⟩
  | .twoSided hp hb he hne hf hr1 hr2 =>
      obtain ⟨body1, reached1, s2, body2, reached2, hr1', hr2', rfl, rfl⟩ :=
        h'.of_twoSided (hp.relabel labels) hb he hne hf
      obtain ⟨rfl, rfl, ho1⟩ := hr1.agrees hl hr1'
      obtain ⟨rfl, rfl, ho2⟩ := hr2.agrees hl hr2'
      exact ⟨rfl, rfl, fun hlab h => by rw [ho1 hlab rfl, ho2 hlab rfl, hlab, h]⟩
  | .switch hp hb he hf ha =>
      obtain ⟨arms, ha', hn, rfl⟩ := h'.of_switch (hp.relabel labels) hb he hf
      obtain ⟨rfl, ho⟩ := ha.agrees hl ha'
      exact ⟨hn.symm, rfl, fun hlab h => by rw [ho hlab, hlab, h]⟩
  | .guarded hat hf hr =>
      obtain ⟨body, hr', rfl, rfl⟩ := h'.of_guarded (hat.relabel labels) hf
      obtain ⟨rfl, ho⟩ := hr.agrees hl hr'
      exact ⟨rfl, rfl, fun hlab h => by rw [ho hlab, hlab, h]⟩
  | .tested hat hf hr _ =>
      obtain ⟨body, s2, hr', rfl, rfl, rfl⟩ := h'.of_tested (hat.relabel labels) hf
      obtain ⟨rfl, ho⟩ := hr.agrees hl hr'
      exact ⟨rfl, rfl, fun hlab h => by rw [ho hlab, hlab, h]⟩
  | .endless hat hf hr =>
      obtain ⟨body, reached, hr', hn, rfl⟩ := h'.of_endless (hat.relabel labels) hf
      obtain ⟨-, rfl, ho⟩ := hr.agrees hl hr'
      exact ⟨hn.symm, rfl, fun hlab h => by rw [ho hlab rfl, h]⟩
  | .guard ht hf hr hc hd =>
      obtain ⟨body, reached, s2, clauses, s3, cleanup, s4, hr', hc', hd', rfl, rfl, rfl⟩ :=
        h'.of_guard (ht.relabel labels) ((hl _ ht.mem _ _).trans hf)
      obtain ⟨rfl, rfl, ho⟩ := hr.agrees hl hr'
      obtain ⟨rfl, hco⟩ := hc.agrees hl hc'
      obtain ⟨rfl, hdo⟩ := hd.agrees hl hd'
      exact ⟨rfl, rfl, fun hlab h => by rw [ho hlab rfl, hco hlab, hdo hlab, h]⟩
termination_by structural h

theorem Part.agrees {a a' absent scopes b stop entering s o o' s1 s1'}
    (hl : Relabels l labels) (h : Part l a absent scopes b stop entering s o s1)
    (h' : Part { l with labels } a' absent scopes b stop entering s o' s1') :
    s1 = s1' ∧ (labels = l.labels → o = o') := by
  match h with
  | .absent =>
      cases h' with
      | absent => exact ⟨rfl, fun _ => rfl⟩
  | .present hr =>
      cases h' with
      | present hr' =>
          obtain ⟨-, hs, ho⟩ := hr.agrees hl hr'
          exact ⟨hs, fun hlab => ho hlab rfl⟩
termination_by structural h

theorem Arms.agrees {a a' scopes default cases follow entries s o o' s1 s1'}
    (hl : Relabels l labels) (h : Arms l a scopes default cases follow entries s o s1)
    (h' : Arms { l with labels } a' scopes default cases follow entries s o' s1') :
    s1 = s1' ∧ (labels = l.labels → o = o') := by
  match h with
  | .nil =>
      cases h' with
      | nil => exact ⟨rfl, fun _ => rfl⟩
  | .cons hr ha =>
      cases h' with
      | cons hr' ha' =>
          obtain ⟨rfl, rfl, ho⟩ := hr.agrees hl hr'
          obtain ⟨hs, ho'⟩ := ha.agrees hl ha'
          exact ⟨hs, fun hlab => by rw [ho hlab rfl, ho' hlab]⟩
termination_by structural h

theorem Clauses.agrees {a a' scopes stop catches s o o' s1 s1'}
    (hl : Relabels l labels) (h : Clauses l a scopes stop catches s o s1)
    (h' : Clauses { l with labels } a' scopes stop catches s o' s1') :
    s1 = s1' ∧ (labels = l.labels → o = o') := by
  match h with
  | .nil =>
      cases h' with
      | nil => exact ⟨rfl, fun _ => rfl⟩
  | .cons hr hc =>
      cases h' with
      | cons hr' hc' =>
          obtain ⟨rfl, ho⟩ := hr.agrees hl hr'
          obtain ⟨hs, ho'⟩ := hc.agrees hl hc'
          exact ⟨hs, fun hlab => by rw [ho hlab, ho' hlab]⟩
termination_by structural h

theorem Cleanup.agrees {a a' scopes sync f s o o' s1 s1'}
    (hl : Relabels l labels) (h : Cleanup l a scopes sync f s o s1)
    (h' : Cleanup { l with labels } a' scopes sync f s o' s1') :
    s1 = s1' ∧ (labels = l.labels → o = o') := by
  match h with
  | .none =>
      cases h' with
      | none => exact ⟨rfl, fun _ => rfl⟩
  | .some hr =>
      cases h' with
      | some hr' =>
          obtain ⟨hs, ho⟩ := hr.agrees hl hr'
          exact ⟨hs, fun hlab => by rw [ho hlab]⟩
termination_by structural h

end

theorem run_eq {entry} (hb : l.isBlock entry = true)
    (h : Region l strict [] entry none false [] .initial o reached s') : run l entry = (o, s') := by
  obtain ⟨_, hrun⟩ := run_region l entry hb
  have hl : Relabels l l.labels := fun _ _ _ _ => rfl
  obtain ⟨-, hs, ho⟩ := hrun.agrees hl h
  exact Prod.ext (ho rfl rfl) hs

end Walk

end JvmLift

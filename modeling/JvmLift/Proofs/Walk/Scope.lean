import JvmLift.Proofs.Meaning.Agreement
import JvmLift.Proofs.Tree.Scope
import JvmLift.Proofs.Walk.Stages

/-!
# Jumps of a walk are well scoped

What is written inside some constructs is well scoped there, provided that every label that a jump has used is
written. It is, when the construct is closed.
-/
namespace JvmLift

open List

open JvmLift.Tree (Scoped ScopedList Mark marks Refines)

/-! ## Statements that the walk changes -/

namespace Tree

mutual

theorem Refines.stripContinue : (ts : List Tree) → Refines (Tree.stripContinue ts) ts
  | [] => .refl _
  | [t] => Refines.stripLast t
  | t :: u :: more => (Refines.refl [t]).cons (Refines.stripContinue (u :: more))

theorem Refines.stripLast : (t : Tree) → Refines t.stripLast [t]
  | .continueTo none => .of_sublist (nil_sublist _)
  | .ifElse e t b => (RefinesOne.ifElse e e (Refines.stripContinue t) (Refines.stripBlock b)).refines
  | .continueTo (some _) | .simple _ | .declare .. | .whileLoop .. | .doWhile .. | .forLoop ..
  | .forEach .. | .switch .. | .tryCatch .. | .synchronized .. | .labeled .. | .breakTo _ | .label _
  | .goto _ | .comment _ => .refl _

theorem Refines.stripBlock : (b : Option (List Tree)) → Refines ((Tree.stripBlock b).getD []) (b.getD [])
  | none => .refl _
  | some ts => Refines.stripContinue ts

end

theorem Refines.mapSimple (f : Expr → Expr) (ts : List Tree) : Refines (ts.map (Walk.mapSimple f)) ts := by
  induction ts with
  | nil => exact .refl _
  | cons t ts ih =>
      refine Refines.cons ?_ ih
      cases t <;> exact ⟨fun _ => id, List.Sublist.refl _⟩

theorem Refines.takeCaught (types : List String) (body : List Tree) : Refines (Walk.takeCaught types body).2 body := by
  unfold Walk.takeCaught
  split
  · split <;> exact (Refines.refl _).drop_cons
  · exact .mapSimple _ body

theorem takeEnter_sublist (rev : List Tree) : (Walk.takeEnter rev).2.Sublist rev := by
  unfold Walk.takeEnter
  split
  · exact sublist_cons_self ..
  · exact List.Sublist.refl _

theorem Refines.takeLock (out : List Tree) (slot : Option UInt16) : Refines (Walk.takeLock out slot).2 out := by
  have henter : (Walk.takeEnter out.reverse).2.reverse.Sublist out := by
    simpa using (takeEnter_sublist out.reverse).reverse
  unfold Walk.takeLock
  dsimp only
  split
  · rename_i rest hrev
    split
    · refine .of_sublist (List.Sublist.trans ?_ henter)
      rw [hrev]
      exact (sublist_cons_self ..).reverse
    · exact .of_sublist henter
  · exact .of_sublist henter

theorem Refines.ifThen (e : Expr) (body : List Tree) : Refines [Walk.ifThen e body] body where
  jumps s hs := ⟨⟨hs, trivial⟩, trivial⟩
  marks := by simp [Walk.ifThen]

theorem Refines.ifBoth (e : Expr) (thenBody elseBody : List Tree) :
    Refines [Walk.ifBoth e thenBody elseBody] (thenBody ++ elseBody) := by
  unfold Walk.ifBoth
  split
  · exact (Refines.ifThen _ elseBody).drop
  · constructor
    · intro s hs
      simp only [scopedList_append, scopedList_cons, scopedList_nil, and_true] at hs ⊢
      refine ⟨hs.1, ?_⟩
      cases elseBody with
      | nil => trivial
      | cons => exact hs.2
    · cases elseBody <;> simp

end Tree

/-! ## Scopes of enclosing constructs -/

def Enclosing.isLoop (e : Enclosing) : Bool := e.continueTarget.isSome

def Scope.inside (s : Scope) (e : Enclosing) : Scope :=
  { s with breaks := true, continues := e.isLoop || s.continues }

namespace Walk

/-- What the enclosing constructs offer once the used labels are written. -/
def scopeOf (scopes : List Enclosing) (used : List Nat) : Scope where
  breaks := !scopes.isEmpty
  continues := scopes.any (·.isLoop)
  labels := (scopes.filter fun e => used.contains e.label).map fun e => labelName e.label
  loopLabels :=
    (scopes.filter fun e => e.isLoop && used.contains e.label).map fun e => labelName e.label

variable {b : BlockId} {j : Jump}

section

variable {scopes : List Enclosing} {used used' : List Nat} {name : String}

theorem mem_labels : name ∈ (scopeOf scopes used).labels ↔ ∃ e ∈ scopes, e.label ∈ used ∧ labelName e.label = name := by
  simp [scopeOf, and_assoc]

theorem mem_loopLabels : name ∈ (scopeOf scopes used).loopLabels ↔
    ∃ e ∈ scopes, e.isLoop = true ∧ e.label ∈ used ∧ labelName e.label = name := by
  simp [scopeOf, and_assoc]

theorem scopeOf_mono (scopes : List Enclosing) (h : used ⊆ used') :
    (scopeOf scopes used).Le (scopeOf scopes used') where
  breaks := id
  continues := id
  labels name hn := by
    obtain ⟨e, he, hu, hname⟩ := mem_labels.mp hn
    exact mem_labels.mpr ⟨e, he, h hu, hname⟩
  loopLabels name hn := by
    obtain ⟨e, he, hloop, hu, hname⟩ := mem_loopLabels.mp hn
    exact mem_loopLabels.mpr ⟨e, he, hloop, h hu, hname⟩

theorem scopeOf_cons_le_named {e} (scopes : List Enclosing) (used : List Nat) :
    (scopeOf (e :: scopes) used).Le (((scopeOf scopes used).named (labelName e.label) e.isLoop).inside e) where
  breaks _ := rfl
  continues := id
  labels name hn := by
    obtain ⟨e', he', hu, rfl⟩ := mem_labels.mp hn
    rcases mem_cons.mp he' with rfl | he'
    · exact mem_cons_self ..
    · exact mem_cons_of_mem _ (mem_labels.mpr ⟨e', he', hu, rfl⟩)
  loopLabels name hn := by
    obtain ⟨e', he', hloop, hu, rfl⟩ := mem_loopLabels.mp hn
    unfold Scope.inside Scope.named
    rcases mem_cons.mp he' with rfl | he'
    · simp [hloop]
    · have hmem := mem_loopLabels.mpr ⟨e', he', hloop, hu, rfl⟩
      cases e.isLoop with
      | true => exact mem_cons_of_mem _ hmem
      | false => exact hmem

theorem scopeOf_cons_le {e} (scopes : List Enclosing) (hu : e.label ∉ used) :
    (scopeOf (e :: scopes) used).Le ((scopeOf scopes used).inside e) where
  breaks _ := rfl
  continues := id
  labels name hn := by simpa [Scope.inside, scopeOf, hu] using hn
  loopLabels name hn := by simpa [Scope.inside, scopeOf, hu] using hn

theorem findJump_mem {firstLoop first} (h : findJump b firstLoop first scopes = some j) :
    ∃ e ∈ scopes, (j.isBreak = false → e.isLoop = true) ∧ (j.label = none ∨ j.label = some e.label) := by
  induction scopes generalizing firstLoop first with
  | nil => cases h
  | cons e rest ih =>
      rw [findJump] at h
      split at h
      · rename_i hcont
        cases h
        refine ⟨e, mem_cons_self .., fun _ => by simp [Enclosing.isLoop, hcont], ?_⟩
        cases firstLoop <;> simp
      · split at h
        · cases h
          cases first <;> simp
        · obtain ⟨e', he', h'⟩ := ih h
          exact ⟨e', mem_cons_of_mem _ he', h'⟩

theorem scoped_jump (h : findJump b true true scopes = some j) (used : List Nat) :
    j.tree.Scoped (scopeOf scopes (j.label.toList ++ used)) := by
  obtain ⟨e, he, hloop, hlabel⟩ := findJump_mem h
  obtain ⟨isBreak, label⟩ := j
  cases isBreak with
  | true =>
      rcases hlabel with rfl | rfl
      · simpa [Jump.tree, Scoped, scopeOf] using ne_nil_of_mem he
      · exact mem_labels.mpr ⟨e, he, by simp, rfl⟩
  | false =>
      rcases hlabel with rfl | rfl
      · simpa [Jump.tree, Scoped, scopeOf] using ⟨e, he, hloop rfl⟩
      · exact mem_loopLabels.mpr ⟨e, he, hloop rfl, by simp, rfl⟩

end

/-! ## What is written is well made -/

/-- Marks that are new between two states: labels taken in between, each once, and jumps to labels
only if approximate. -/
structure FreshMarks (s s' : State) (ms : List Mark) : Prop where
  nodup : (ms.filterMap Mark.label?).Nodup
  taken : ∀ name, .label name ∈ ms → ∃ k, s.labelCount < k ∧ k ≤ s'.labelCount ∧ name = labelName k
  gotos : ∀ name, .goto name ∈ ms → s'.approximate = true

/-- Statements that were written inside some constructs between two states. -/
structure WellMade (scopes : List Enclosing) (s s' : State) (ts : List Tree) : Prop where
  jumps : ScopedList (scopeOf scopes s'.usedLabels) ts
  fresh : FreshMarks s s' (marks ts)

variable {body : List Tree}

section

variable {scopes : List Enclosing} {s s1 s2 s' : State} {ts us : List Tree} {ms ms' : List Mark}

theorem FreshMarks.nil : FreshMarks s s' [] := ⟨nodup_nil, nofun, nofun⟩

theorem FreshMarks.sublist (h : FreshMarks s s' ms) (hs : ms'.Sublist ms) : FreshMarks s s' ms' where
  nodup := (hs.filterMap _).nodup h.nodup
  taken name hn := h.taken name (hs.subset hn)
  gotos name hn := h.gotos name (hs.subset hn)

theorem FreshMarks.mono (h : FreshMarks s1 s2 ms) (hle : s.labelCount ≤ s1.labelCount)
    (hg' : Grows s2 s') : FreshMarks s s' ms where
  nodup := h.nodup
  taken name hn := by
    obtain ⟨k, hlo, hhi, rfl⟩ := h.taken name hn
    exact ⟨k, Nat.lt_of_le_of_lt hle hlo, Nat.le_trans hhi hg'.labelCount, rfl⟩
  gotos name hn := by
    cases ha : s'.approximate with
    | true => rfl
    | false => exact (hg'.approximate ha).symm.trans (h.gotos name hn)

theorem FreshMarks.append (h : FreshMarks s s1 ms) (h' : FreshMarks s1 s' ms') (hg : Grows s s1)
    (hg' : Grows s1 s') : FreshMarks s s' (ms ++ ms') where
  nodup := by
    rw [filterMap_append, nodup_append]
    refine ⟨h.nodup, h'.nodup, ?_⟩
    rintro name hn _ hn' rfl
    obtain ⟨k, -, hk, rfl⟩ := h.taken _ (Mark.mem_label?.mp hn)
    obtain ⟨k', hk', -, heq⟩ := h'.taken _ (Mark.mem_label?.mp hn')
    exact absurd (labelName_injective heq) (Nat.ne_of_lt (Nat.lt_of_le_of_lt hk hk'))
  taken name hn := by
    rcases mem_append.mp hn with hn | hn
    · exact (h.mono (Nat.le_refl _) hg').taken name hn
    · exact (h'.mono hg.labelCount (.refl s')).taken name hn
  gotos name hn := by
    rcases mem_append.mp hn with hn | hn
    · exact (h.mono (Nat.le_refl _) hg').gotos name hn
    · exact h'.gotos name hn

theorem FreshMarks.cons (h : FreshMarks s1 s' ms) (hs : s1.labelCount = s.labelCount + 1)
    (hg : Grows s1 s') : FreshMarks s s' (.label (labelName (s.labelCount + 1)) :: ms) where
  nodup := by
    refine nodup_cons.mpr ⟨fun hn => ?_, h.nodup⟩
    obtain ⟨k, hk, -, heq⟩ := h.taken _ (Mark.mem_label?.mp hn)
    have := labelName_injective heq
    omega
  taken name hn := by
    rcases mem_cons.mp hn with hn | hn
    · cases hn
      exact ⟨s.labelCount + 1, Nat.lt_succ_self _, hs ▸ hg.labelCount, rfl⟩
    · obtain ⟨k, hlo, hhi, rfl⟩ := h.taken name hn
      exact ⟨k, by omega, hhi, rfl⟩
  gotos name hn := h.gotos name (by simpa using hn)

namespace WellMade

theorem nil : WellMade scopes s s' [] := ⟨trivial, .nil⟩

theorem refines (h : WellMade scopes s s' ts) (hr : Refines us ts) : WellMade scopes s s' us :=
  ⟨hr.jumps _ h.jumps, h.fresh.sublist hr.marks⟩

theorem mono (h : WellMade scopes s1 s2 ts) (hg : Grows s s1) (hg' : Grows s2 s') : WellMade scopes s s' ts :=
  ⟨h.jumps.mono (scopeOf_mono scopes hg'.usedLabels), h.fresh.mono hg.labelCount hg'⟩

theorem append (h : WellMade scopes s s1 ts) (h' : WellMade scopes s1 s' us) (hg : Grows s s1)
    (hg' : Grows s1 s') : WellMade scopes s s' (ts ++ us) where
  jumps := Tree.scopedList_append.mpr ⟨(h.mono (.refl s) hg').jumps, h'.jumps⟩
  fresh := by
    rw [Tree.marks_append]
    exact h.fresh.append h'.fresh hg hg'

theorem wrap {head t} (h : WellMade (head :: scopes) s1 s' body)
    (hs : s1.labelCount = s.labelCount + 1) (hlabel : head.label = s.labelCount + 1) (hg : Grows s1 s')
    (hloop : t.isLoop = head.isLoop) (hjumps : ∀ sc : Scope, ScopedList (sc.inside head) body → t.Scoped sc)
    (hmarks : (marks [t]).Sublist (marks body)) : WellMade scopes s s' [s'.wrap (s.labelCount + 1) t] := by
  unfold State.wrap
  split
  · refine ⟨⟨?_, trivial⟩, ?_⟩
    · rw [Scoped, hloop, ← hlabel]
      exact hjumps _ (h.jumps.mono (scopeOf_cons_le_named scopes _))
    · exact (h.fresh.sublist hmarks).cons hs hg
  · rename_i hunused
    rw [contains_iff_mem, ← hlabel] at hunused
    refine ⟨⟨hjumps _ (h.jumps.mono (scopeOf_cons_le scopes hunused)), trivial⟩, ?_⟩
    exact (h.fresh.sublist hmarks).mono (by omega) (.refl s')

end WellMade

end

/-! ## Constructs -/

/-- Something is written inside some constructs behind what was there before, which may lose
statements at its end. -/
def Extends (scopes : List Enclosing) (s s' : State) (out out' : List Tree) : Prop :=
  ∃ ts, Refines out' (out ++ ts) ∧ WellMade scopes s s' ts

section

variable {l : Layout} {strict : Bool} {scopes : List Enclosing} {s s1 s' : State}
  {out out1 out' ts : List Tree}

theorem Extends.refl : Extends scopes s s' out out := ⟨[], by simpa using .refl out, .nil⟩

theorem Extends.behind (h : WellMade scopes s s' ts) : Extends scopes s s' out (out ++ ts) :=
  ⟨ts, .refl _, h⟩

theorem Extends.trans (h : Extends scopes s s1 out out1) (h' : Extends scopes s1 s' out1 out')
    (hg : Grows s s1) (hg' : Grows s1 s') : Extends scopes s s' out out' := by
  obtain ⟨ts, hr, hw⟩ := h
  obtain ⟨us, hr', hw'⟩ := h'
  refine ⟨ts ++ us, ?_, hw.append hw' hg hg'⟩
  rw [← append_assoc]
  exact (hr.append (.refl us)).trans hr'

theorem Extends.wellMade (h : Extends scopes s s' [] ts) : WellMade scopes s s' ts := by
  obtain ⟨us, hr, hw⟩ := h
  exact hw.refines hr

theorem wellMade_stmtsOf (block : Block) : WellMade scopes s s' (stmtsOf block) := by
  unfold stmtsOf
  induction block.stmts with
  | nil => exact .nil
  | cons stmt rest ih => exact ⟨⟨trivial, ih.jumps⟩, ih.fresh⟩

theorem wellMade_labelOf (l : Layout) (b : BlockId) : WellMade scopes s s' (labelOf l b) := by
  unfold labelOf
  split
  · exact ⟨⟨trivial, trivial⟩, nodup_nil, by simp, by simp⟩
  · exact .nil

theorem wellMade_blockTrees (l : Layout) (b : BlockId) (block : Block) : WellMade scopes s s (blockTrees l b block) :=
  (wellMade_labelOf l b).append (wellMade_stmtsOf block) (.refl s) (.refl s)

theorem wellMade_latch (l : Layout) (latch : BlockId) (h : WellMade scopes s s' ts) (hg : Grows s s') :
    WellMade scopes s (s'.visit latch) (ts ++ latchTrees l latch) := by
  refine h.append ?_ hg (.visit s' latch)
  unfold latchTrees
  cases l.block? latch with
  | none => exact .nil
  | some block => exact wellMade_stmtsOf block

theorem wellMade_jump (h : findJump b true true scopes = some j) : WellMade scopes s (s.useLabel j) [j.tree] := by
  refine ⟨⟨scoped_jump h _, trivial⟩, ?_⟩
  unfold Jump.tree
  split <;> exact .nil

theorem wellMade_goto (b : BlockId) : WellMade scopes s (s.noteGoto b) [.goto (blockLabel b)] where
  jumps := ⟨trivial, trivial⟩
  fresh :=
    { nodup := nodup_nil
      taken := by simp
      gotos := fun _ _ => rfl }

variable {follow : Option BlockId}

theorem wellMade_loop {c t} (h : WellMade (⟨some c, follow, s.labelCount + 1⟩ :: scopes) s1 s' body)
    (hs : s1.labelCount = s.labelCount + 1) (hg : Grows s1 s') (hloop : t.isLoop = true)
    (hjumps : ∀ sc : Scope, ScopedList sc.inLoop body → t.Scoped sc) (hmarks : (marks [t]).Sublist (marks body)) :
    WellMade scopes s s' [s'.wrap (s.labelCount + 1) t] :=
  h.wrap hs rfl hg hloop hjumps hmarks

theorem wellMade_switch {key arms}
    (h : WellMade (⟨none, follow, s.labelCount + 1⟩ :: scopes) s1 s' (arms.flatMap (·.2)))
    (hs : s1.labelCount = s.labelCount + 1) (hg : Grows s1 s') :
    WellMade scopes s s' [s'.wrap (s.labelCount + 1) (.switch .int key arms)] :=
  h.wrap hs rfl hg rfl (fun _ hsc => (Tree.scopedArms_iff arms).mpr hsc) (by simp)

theorem extends_tryTrees {plan clauses cleanup index s2 s3} (hbody : WellMade scopes (s.openTry index) s1 body)
    (hclauses : WellMade scopes s1 s2 (clauses.flatMap (·.2))) (hcleanup : WellMade scopes s2 s3 (cleanup.getD []))
    (hg : Grows (s.openTry index) s1) (hg1 : Grows s1 s2) (hg2 : Grows s2 s3) :
    Extends scopes s (s3.noteShape plan) out (tryTrees plan out body clauses cleanup) := by
  have hopen := Grows.openTry s index
  have hnote := Grows.noteShape s3 plan
  unfold tryTrees
  split
  · refine ⟨[.synchronized _ body], (Refines.takeLock out _).append (.refl _), ?_⟩
    have hw := hbody.mono hopen ((hg1.trans hg2).trans hnote)
    exact ⟨⟨hw.jumps, trivial⟩, by simpa using hw.fresh⟩
  · refine .behind ?_
    have hw := ((hbody.append hclauses hg hg1).append hcleanup (hg.trans hg1) hg2).mono hopen hnote
    have hj := hw.jumps
    simp only [Tree.scopedList_append] at hj
    refine ⟨⟨⟨hj.1.1, ?_, ?_⟩, trivial⟩, by simpa using hw.fresh⟩
    · exact (Tree.scopedClauses_iff clauses).mpr hj.1.2
    · exact (Tree.scopedBlock_iff cleanup).mpr hj.2

theorem extends_blockTrees (l : Layout) (b : BlockId) (block : Block)
    (h : WellMade scopes (s.visit b) s' ts) (hg : Grows (s.visit b) s') :
    Extends scopes s s' out (out ++ blockTrees l b block ++ ts) := by
  rw [append_assoc]
  have hvisit := Grows.visit s b
  exact .behind ((wellMade_blockTrees l b block).append (h.mono hvisit (.refl s')) (.refl s)
    (hvisit.trans hg))

mutual

theorem Region.extends {scopes b stop entering out s out' reached s'}
    (h : Region l strict scopes b stop entering out s out' reached s') : Extends scopes s s' out out' := by
  match h with
  | .stop => exact .refl
  | .jump _ hj => exact .behind (wellMade_jump hj)
  | .goto _ _ _ => exact .behind (wellMade_goto _)
  | .skip _ _ hr => exact hr.extends
  | .outside _ _ _ => exact .refl
  | .last _ _ _ hc => exact hc.extends
  | .next _ _ _ hc hr => exact hc.extends.trans hr.extends hc.grows hr.grows

theorem Construct.extends {scopes b stop out s next out' s'}
    (h : Construct l strict scopes b stop out s next out' s') : Extends scopes s s' out out' := by
  match h with
  | .goes _ _ _ | .ends _ _ _ => exact .behind ((wellMade_blockTrees ..).mono (.refl _) (.visit _ _))
  | .oneSided _ _ _ _ _ hr _ =>
      exact extends_blockTrees _ _ _ (hr.extends.wellMade.refines (.ifThen _ _)) hr.grows
  | .twoSided _ _ _ _ _ hr1 hr2 =>
      have hboth := hr1.extends.wellMade.append hr2.extends.wellMade hr1.grows hr2.grows
      exact extends_blockTrees _ _ _ (hboth.refines (.ifBoth _ _ _)) (hr1.grows.trans hr2.grows)
  | .switch _ _ _ _ ha =>
      exact extends_blockTrees _ _ _ (wellMade_switch ha.wellMade rfl ha.grows)
        ((Grows.takeLabel _).trans ha.grows)
  | .guarded _ _ hr =>
      rw [append_assoc]
      have hg := ((Grows.openLoop s b).trans (.takeLabel _)).trans (.visit _ b)
      refine .behind ((wellMade_labelOf ..).append ?_ (.refl _) (hg.trans hr.grows))
      exact wellMade_loop (hr.wellMade.refines (.stripContinue _)) rfl hr.grows rfl (fun _ hsc => hsc)
        (by simp)
  | .tested _ _ hr _ =>
      exact .behind (wellMade_loop ((wellMade_latch _ _ hr.wellMade hr.grows).refines (.stripContinue _)) rfl
        (hr.grows.trans (.visit _ _)) rfl (fun _ hsc => hsc) (by simp))
  | .endless _ _ hr =>
      exact .behind (wellMade_loop (hr.extends.wellMade.refines (.stripContinue _)) rfl hr.grows rfl
        (fun _ hsc => hsc) (by simp))
  | .guard ht _ hr hc hd =>
      exact extends_tryTrees hr.extends.wellMade hc.wellMade hd.wellMade hr.grows hc.grows hd.grows

theorem Part.wellMade {absent scopes b stop entering s body s'}
    (h : Part l strict absent scopes b stop entering s body s') : WellMade scopes s s' body := by
  match h with
  | .absent => exact .nil
  | .present hr => exact hr.extends.wellMade

theorem Arms.wellMade {scopes default cases follow entries s arms s'}
    (h : Arms l strict scopes default cases follow entries s arms s') : WellMade scopes s s' (arms.flatMap (·.2)) := by
  match h with
  | .nil => exact .nil
  | .cons hr ha => exact hr.extends.wellMade.append ha.wellMade hr.grows ha.grows

theorem Clauses.wellMade {scopes stop catches s clauses s'} (h : Clauses l strict scopes stop catches s clauses s') :
    WellMade scopes s s' (clauses.flatMap (·.2)) := by
  match h with
  | .nil => exact .nil
  | .cons hr hc =>
      exact (hr.wellMade.refines (.takeCaught _ _)).append hc.wellMade hr.grows hc.grows

theorem Cleanup.wellMade {scopes sync f s cleanup s'}
    (h : Cleanup l strict scopes sync f s cleanup s') : WellMade scopes s s' (cleanup.getD []) := by
  match h with
  | .none => exact .nil
  | .some hr => exact hr.wellMade.mono (.visitCleanup _ _) (.refl _)

end

end

end Walk

end JvmLift

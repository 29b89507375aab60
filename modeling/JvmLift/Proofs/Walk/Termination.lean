import JvmLift.Proofs.Structure.Settling
import JvmLift.Proofs.Walk.Unique

/-!
# The walk comes to an end

Every call that a walk makes leaves fewer blocks, loops and protected regions to write than the one it comes from, or
as many and fewer skipped ranges or parts ahead.
-/
namespace JvmLift

namespace Walk

/-! ## Calls -/

/-- What a walk does at one time: it writes a region, a construct, or parts of one that come one after
the other. -/
inductive Call where
  | region (scopes : List Enclosing) (b : BlockId) (stop : Option BlockId) (entering : Bool)
    (out : List Tree) (s : State)
  | construct (scopes : List Enclosing) (b : BlockId) (stop : Option BlockId) (out : List Tree) (s : State)
  | arms (scopes : List Enclosing) (default : BlockId) (cases : List (Int32 × BlockId))
    (follow : Option BlockId) (entries : List BlockId) (s : State)
  | clauses (scopes : List Enclosing) (stop : Option BlockId) (catches : List CatchPlan) (s : State)
  | cleanup (scopes : List Enclosing) (sync : Bool) (f : Option FinallyPlan) (s : State)

inductive Answer where
  | region (out : List Tree) (reached : Bool) (s : State)
  | construct (next : Option BlockId) (out : List Tree) (s : State)
  | arms (arms : List (Arm × List Tree)) (s : State)
  | clauses (clauses : List (Clause × List Tree)) (s : State)
  | cleanup (body : Option (List Tree)) (s : State)

inductive Answers (l : Layout) : Call → Answer → Prop where
  | region {scopes b stop entering out s out' reached s'}
      (h : Region l false scopes b stop entering out s out' reached s') :
      Answers l (.region scopes b stop entering out s) (.region out' reached s')
  | construct {scopes b stop out s next out' s'} (h : Construct l false scopes b stop out s next out' s') :
      Answers l (.construct scopes b stop out s) (.construct next out' s')
  | arms {scopes default cases follow entries s arms s'}
      (h : Arms l false scopes default cases follow entries s arms s') :
      Answers l (.arms scopes default cases follow entries s) (.arms arms s')
  | clauses {scopes stop catches s clauses s'} (h : Clauses l false scopes stop catches s clauses s') :
      Answers l (.clauses scopes stop catches s) (.clauses clauses s')
  | cleanup {scopes sync f s body s'} (h : Cleanup l false scopes sync f s body s') :
      Answers l (.cleanup scopes sync f s) (.cleanup body s')

/-- A block that is being entered was not written before, and constructs are written at such blocks. -/
def Call.Proper (l : Layout) : Call → Prop
  | .region _ b _ entering _ s => entering = true → b ∉ s.visited
  | .construct _ b _ _ s => l.isBlock b = true ∧ b ∉ s.visited
  | _ => True

/-- One call makes another. Calls that are made later start in the state that earlier ones leave. -/
inductive Calls (l : Layout) : Call → Call → Prop where
  | skip {scopes b stop entering out s past} (ha : Arrives scopes b stop entering s)
      (hp : skipPast? l b = some past) :
      Calls l (.region scopes b stop entering out s) (.region scopes past stop false out s)
  | construct {scopes b stop entering out s} (ha : Arrives scopes b stop entering s)
      (hp : skipPast? l b = none) (hb : l.isBlock b = true) :
      Calls l (.region scopes b stop entering out s) (.construct scopes b stop out s)
  | next {scopes b stop entering out s n out1 s1} (ha : Arrives scopes b stop entering s)
      (hp : skipPast? l b = none) (hb : l.isBlock b = true)
      (hc : Construct l false scopes b stop out s (some n) out1 s1) :
      Calls l (.region scopes b stop entering out s) (.region scopes n stop false out1 s1)
  | oneSide {scopes b stop out s block e taken fall side armStop ends} (hp : Plain l s b)
      (hb : l.block? b = some block) (he : block.exit = .cond e taken fall) (hne : taken ≠ fall)
      (hf : branchForm l scopes taken fall stop = .oneSided side armStop ends) :
      Calls l (.construct scopes b stop out s)
        (.region scopes (side.arm taken fall) armStop false [] (s.visit b))
  | fallSide {scopes b stop out s block e taken fall armStop meets} (hp : Plain l s b)
      (hb : l.block? b = some block) (he : block.exit = .cond e taken fall) (hne : taken ≠ fall)
      (hf : branchForm l scopes taken fall stop = .twoSided armStop meets) :
      Calls l (.construct scopes b stop out s) (.region scopes fall armStop false [] (s.visit b))
  | takenSide {scopes b stop out s block e taken fall armStop meets body reached s1} (hp : Plain l s b)
      (hb : l.block? b = some block) (he : block.exit = .cond e taken fall) (hne : taken ≠ fall)
      (hf : branchForm l scopes taken fall stop = .twoSided armStop meets)
      (hr : Region l false scopes fall armStop false [] (s.visit b) body reached s1) :
      Calls l (.construct scopes b stop out s) (.region scopes taken armStop false [] s1)
  | arms {scopes b stop out s block key default cases follow} (hp : Plain l s b)
      (hb : l.block? b = some block) (he : block.exit = .switch key default cases)
      (hf : followOf l scopes stop default cases = follow) :
      Calls l (.construct scopes b stop out s)
        (.arms (⟨none, follow, s.labelCount + 1⟩ :: scopes) default cases follow
          (entriesOf default cases follow) (s.visit b).takeLabel)
  | guarded {scopes b stop out s info test inside follow} (hl : LoopAt l s b info)
      (hf : l.loopForm info = .guarded test inside follow) (hne : inside ≠ b) :
      Calls l (.construct scopes b stop out s)
        (.region (⟨some b, some follow, s.labelCount + 1⟩ :: scopes) inside none false []
          ((s.openLoop b).takeLabel.visit b))
  | tested {scopes b stop out s info latch test follow} (hl : LoopAt l s b info)
      (hf : l.loopForm info = .tested latch test follow) (hne : latch ≠ b) :
      Calls l (.construct scopes b stop out s)
        (.region (⟨some latch, some follow, s.labelCount + 1⟩ :: scopes) b (some latch) true []
          (s.openLoop b).takeLabel)
  | endless {scopes b stop out s info follow} (hl : LoopAt l s b info)
      (hf : l.loopForm info = .endless follow) :
      Calls l (.construct scopes b stop out s)
        (.region (⟨some b, follow, s.labelCount + 1⟩ :: scopes) b none true [] (s.openLoop b).takeLabel)
  | guard {scopes b stop out s index plan follow} (ht : TryAt l s b index plan)
      (hf : l.tryFollow (index :: s.tries) (boundsOf scopes stop) plan = follow) :
      Calls l (.construct scopes b stop out s)
        (.region scopes plan.start (follow.or stop) true [] (s.openTry index))
  | clauses {scopes b stop out s index plan follow body reached s1} (ht : TryAt l s b index plan)
      (hf : l.tryFollow (index :: s.tries) (boundsOf scopes stop) plan = follow)
      (hr : Region l false scopes plan.start (follow.or stop) true [] (s.openTry index) body reached s1) :
      Calls l (.construct scopes b stop out s) (.clauses scopes (follow.or stop) plan.catches s1)
  | cleanup {scopes b stop out s index plan follow body reached s1 clauses s2} (ht : TryAt l s b index plan)
      (hf : l.tryFollow (index :: s.tries) (boundsOf scopes stop) plan = follow)
      (hr : Region l false scopes plan.start (follow.or stop) true [] (s.openTry index) body reached s1)
      (hc : Clauses l false scopes (follow.or stop) plan.catches s1 clauses s2) :
      Calls l (.construct scopes b stop out s)
        (.cleanup scopes plan.shape.isSynchronized plan.cleanup s2)
  | arm {scopes default cases follow entry rest s} :
      Calls l (.arms scopes default cases follow (entry :: rest) s)
        (.region scopes entry (rest.head?.or follow) false [] s)
  | otherArms {scopes default cases follow entry rest s body reached s1}
      (hr : Region l false scopes entry (rest.head?.or follow) false [] s body reached s1) :
      Calls l (.arms scopes default cases follow (entry :: rest) s)
        (.arms scopes default cases follow rest s1)
  | clause {scopes stop c rest s} (hv : c.handler ∉ s.visited) :
      Calls l (.clauses scopes stop (c :: rest) s) (.region scopes c.handler stop false [] s)
  | otherClauses {scopes stop c rest s body s1}
      (hr : Part l false (s.visited.contains c.handler) scopes c.handler stop false s body s1) :
      Calls l (.clauses scopes stop (c :: rest) s) (.clauses scopes stop rest s1)
  | finalizer {scopes f s} (hne : f.bodyStart ≠ f.bodyStop) :
      Calls l (.cleanup scopes false (some f) s)
        (.region scopes f.bodyStart (some f.bodyStop) false [] (s.visitCleanup f))

/-! ## Calls get smaller -/

/-- What is left to write, and what is left to pass over or to go through until something is written. -/
def Call.size (l : Layout) : Call → Nat × Nat
  | .region _ b _ _ _ s => (pending l s, 2 * skipsFrom l b + 1)
  | .construct _ b _ _ s => (pending l s, 2 * skipsFrom l b)
  | .arms _ _ _ _ entries s => (pending l s, 2 * l.protection.skipped.length + 2 + entries.length)
  | .clauses _ _ catches s => (pending l s, 2 * l.protection.skipped.length + 2 + catches.length)
  | .cleanup _ _ _ s => (pending l s, 2 * l.protection.skipped.length + 2)

def Less : Nat × Nat → Nat × Nat → Prop := Prod.Lex (· < ·) (· < ·)

theorem wellFounded_less : WellFounded Less := (Prod.lex Nat.lt_wfRel Nat.lt_wfRel).wf

theorem less_of_lt {a b a' b'} (h : a + 1 ≤ a') : Less (a, b) (a', b') := .left _ _ h

theorem less_of_le {a b a' b'} (h : a ≤ a') (hb : b < b') : Less (a, b) (a', b') := by
  rcases Nat.lt_or_eq_of_le h with h | rfl
  · exact .left _ _ h
  · exact .right _ hb

variable {l : Layout}

theorem Calls.pending_lt {scopes b stop out s c}
    (h : Calls l (.construct scopes b stop out s) c) (hv : b ∉ s.visited) : (c.size l).1 + 1 ≤ pending l s := by
  cases h with
  | oneSide _ hb _ _ _ | fallSide _ hb _ _ _ => exact pending_visit hb hv
  | takenSide _ hb _ _ _ hr => exact Nat.le_trans (Nat.succ_le_succ hr.grows.pending_le) (pending_visit hb hv)
  | arms _ hb _ _ =>
      exact Nat.le_trans (Nat.succ_le_succ (Grows.takeLabel _).pending_le) (pending_visit hb hv)
  | guarded hl _ _ =>
      exact Nat.le_trans (Nat.succ_le_succ ((Grows.takeLabel _).trans (.visit _ _)).pending_le)
        (pending_openLoop hl.pending)
  | tested hl _ _ | endless hl _ =>
      exact Nat.le_trans (Nat.succ_le_succ (Grows.takeLabel _).pending_le) (pending_openLoop hl.pending)
  | guard ht _ => exact pending_openTry ht.pending
  | clauses ht _ hr =>
      exact Nat.le_trans (Nat.succ_le_succ hr.grows.pending_le) (pending_openTry ht.pending)
  | cleanup ht _ hr hc =>
      exact Nat.le_trans (Nat.succ_le_succ (hr.grows.trans hc.grows).pending_le) (pending_openTry ht.pending)

theorem Calls.less {c c'} (h : Calls l c c') (hc : c.Proper l) : Less (c'.size l) (c.size l) := by
  have hskips (b : BlockId) := skipsFrom_le (l := l) (b := b)
  cases c with
  | construct scopes b stop out s => exact less_of_lt (h.pending_lt hc.2)
  | region scopes b stop entering out s =>
      cases h with
      | skip _ hp =>
          have := skipsFrom_past hp
          exact less_of_le (Nat.le_refl _) (by omega)
      | construct _ _ _ => exact less_of_le (Nat.le_refl _) (Nat.lt_succ_self _)
      | next ha _ _ hc => exact less_of_lt (hc.pending_lt ha.fresh)
  | arms scopes default cases follow entries s =>
      cases h with
      | @arm _ _ _ _ entry =>
          have := hskips entry
          exact less_of_le (Nat.le_refl _) (by omega)
      | otherArms hr => exact less_of_le hr.grows.pending_le (by simp)
  | clauses scopes stop catches s =>
      cases h with
      | @clause _ _ c =>
          have := hskips c.handler
          exact less_of_le (Nat.le_refl _) (by omega)
      | otherClauses hr => exact less_of_le hr.grows.pending_le (by simp)
  | cleanup scopes sync f s =>
      cases h with
      | @finalizer _ f =>
          have := hskips f.bodyStart
          exact less_of_le (Grows.visitCleanup _ _).pending_le (by omega)

theorem Calls.proper {c c'} (h : Calls l c c') (hc : c.Proper l) : c'.Proper l := by
  cases h with
  | construct ha _ hb => exact ⟨hb, ha.fresh⟩
  | tested _ _ _ | endless _ _ => exact fun _ => hc.2
  | guard ht _ => exact fun _ => (pendingTry_some ht.pending).2.1 ▸ hc.2
  | arms _ _ _ _ | clauses _ _ _ | cleanup _ _ _ _ | otherArms _ | otherClauses _ => trivial
  | _ => exact fun h => Bool.noConfusion h

/-! ## Calls are answered -/

theorem walks_blocksFrom {n} (hn : stages l ≤ n) (p : Nat) : Walks l (blocksFrom l n) p :=
  fun scopes b stop entering out s hv _ =>
    blocksFrom_region l n scopes b stop entering out s hv (Nat.le_trans (stagesFrom_le l s b) hn)

theorem exists_answer (c : Call) (hc : c.Proper l) : ∃ a, Answers l c a := by
  have hw := walks_blocksFrom (Nat.le_refl (stages l))
  cases c with
  | region scopes b stop entering out s => exact ⟨_, .region (hw _ scopes b stop entering out s hc (Nat.le_refl _))⟩
  | construct scopes b stop out s =>
      exact ⟨_, .construct (construct_construct (hw _) scopes stop out hc.1 hc.2 (Nat.le_succ _))⟩
  | arms scopes default cases follow entries s =>
      exact ⟨_, .arms (switchArms_arms (hw _) scopes default cases follow entries s (Nat.le_refl _))⟩
  | clauses scopes stop catches s =>
      exact ⟨_, .clauses (catchClauses_clauses (hw _) scopes stop catches s (Nat.le_refl _))⟩
  | cleanup scopes sync f s =>
      exact ⟨_, .cleanup (finalizer_cleanup (hw _) scopes sync f s (Nat.le_refl _))⟩

theorem Answers.unique {c a a'} (h : Answers l c a) (h' : Answers l c a') : a = a' := by
  have hl : Relabels l l.labels := fun _ _ _ _ => rfl
  cases h with
  | region h =>
      cases h' with
      | region h' =>
          obtain ⟨rfl, rfl, hout⟩ := h.agrees hl h'
          rw [hout rfl rfl]
  | construct h =>
      cases h' with
      | construct h' =>
          obtain ⟨rfl, rfl, hout⟩ := h.agrees hl h'
          rw [hout rfl rfl]
  | arms h =>
      cases h' with
      | arms h' =>
          obtain ⟨rfl, harms⟩ := h.agrees hl h'
          rw [harms rfl]
  | clauses h =>
      cases h' with
      | clauses h' =>
          obtain ⟨rfl, hclauses⟩ := h.agrees hl h'
          rw [hclauses rfl]
  | cleanup h =>
      cases h' with
      | cleanup h' =>
          obtain ⟨rfl, hbody⟩ := h.agrees hl h'
          rw [hbody rfl]

/-! ## Methods -/

/-- Whatever is done in a walk over a layout comes to an end. -/
structure Terminates (l : Layout) : Prop where
  skips : ∀ b, Settles (skipPast? l) b (l.chaseSkips b)
  jumps : ∀ done bounds b, ∃ seen,
    Settles (l.jumpStep? done bounds) ([], b) (seen, l.chaseJumps done bounds b)
  reach : ∀ bounds start, ∃ seen, Settles (l.searchStep? bounds) ([start], []) ([], seen) ∧
    ∀ b, b ∈ seen ↔ b ∈ l.reach bounds start
  calls : ∀ c c', c.Proper l → Calls l c c' → c'.Proper l ∧ Less (c'.size l) (c.size l)
  finite : WellFounded fun c' c => c.Proper l ∧ Calls l c c'
  answers : ∀ c, c.Proper l → ∃! a, Answers l c a
  /-- With enough stages the walk gives the answer. -/
  walk : ∀ n ≥ stages l, ∀ scopes b stop entering out s, (entering = true → b ∉ s.visited) →
    ∀ out' reached s', (blocksFrom l n scopes b stop entering out).run s = ((out', reached), s') →
      Answers l (.region scopes b stop entering out s) (.region out' reached s')
  run : ∀ entry, l.isBlock entry = true → ∃ reached,
    Answers l (.region [] entry none false [] .initial) (.region (run l entry).1 reached (run l entry).2)

theorem terminates_of_linked (hl : l.Linked) : Terminates l where
  skips _ := Layout.settles_passSkips skipsFrom_le
  jumps _ _ _ := Layout.settles_passJumps List.countP_le_length
  reach := hl.settles_reach
  calls _ _ hc h := ⟨h.proper hc, h.less hc⟩
  finite := Subrelation.wf (fun h => h.2.less h.1) (InvImage.wf (Call.size l) wellFounded_less)
  answers c hc := by
    obtain ⟨a, ha⟩ := exists_answer c hc
    exact ⟨a, ha, fun _ ha' => ha'.unique ha⟩
  walk n hn scopes b stop entering out s hv out' reached s' hrun := by
    have hr := walks_blocksFrom hn _ scopes b stop entering out s hv (Nat.le_refl _)
    rw [hrun] at hr
    exact .region hr
  run entry hb := by
    obtain ⟨reached, hr⟩ := run_region l entry hb
    exact ⟨reached, .region hr⟩

end Walk

theorem FlowGraph.isSome_dominators? (g : FlowGraph) : (g.dominators? g.reversePostorder).isSome = true := by
  by_cases he : g.isNode g.entry = true
  · obtain ⟨doms, hdoms, -⟩ := g.dominators?_spec he
    rw [hdoms]
    rfl
  · simp [dominators?, reversePostorder, he, DomPass.settle]

/-- Structuring ends for all blocks, graphs and plans. Conditions are folded until none can be, the
dominators of the graph are found, and the walks over what is left terminate, whichever blocks have
labels. A walk breaks off where it enters a region that ends in front of its start, and nowhere else:
without such regions a body is given. -/
theorem structureMethod_terminates (cf : ControlFlow) (blocks : List Block) (p : Protection) (fold : Bool) :
    Settles (Fold.step? (Structure.keptBlocks cf p)) blocks (Structure.folded cf blocks p true) ∧
      ((Structure.layout cf blocks p fold).graph.dominators?
        (Structure.layout cf blocks p fold).order).isSome = true ∧
      (∀ labels, Walk.Terminates { Structure.layout cf blocks p fold with labels }) ∧
      (∃ labels, structureMethod cf blocks p fold =
        Structure.bodyOf (Walk.run { Structure.layout cf blocks p fold with labels } cf.entry)) ∧
      (structureMethod? cf blocks p fold = none ↔
        Structure.EntersInverted (Structure.layout cf blocks p fold) cf.entry ∨
          Structure.EntersInverted (Structure.walked cf blocks p fold) cf.entry) ∧
      (∀ body, structureMethod? cf blocks p fold = some body → body = structureMethod cf blocks p fold) ∧
      ((∀ plan ∈ p.plans, plan.start ≤ plan.stop) →
        structureMethod? cf blocks p fold = some (structureMethod cf blocks p fold)) := by
  refine ⟨Fold.settles_run (Nat.le_refl _), FlowGraph.isSome_dominators? _, fun labels => ?_,
    ⟨_, Structure.structureMethod_eq cf blocks p fold⟩, ?_,
    fun _ h => (Structure.structureMethod?_eq_some_iff.mp h).2, Structure.structureMethod?_eq⟩
  · exact Walk.terminates_of_linked (Layout.linked_ofGraph cf _ p labels)
  · exact eq_none_iff_of_some fun _ => Structure.structureMethod?_eq_some_iff

/-- A region from the fourth offset to another one, beside a skipped range that ends in front of its start. -/
def regionUpTo (stop : Nat) : Protection := ⟨[⟨4, stop, .catchOnly, [], none, none, false⟩], [], [(9, 5)]⟩

theorem structureMethod_terminates_regionUpTo :
    structureMethod? ⟨4, [], []⟩ [⟨4, [], .leave, []⟩] (regionUpTo 4) false =
      some (structureMethod ⟨4, [], []⟩ [⟨4, [], .leave, []⟩] (regionUpTo 4) false) := by
  obtain ⟨-, -, -, -, -, -, hgiven⟩ :=
    structureMethod_terminates ⟨4, [], []⟩ [⟨4, [], .leave, []⟩] (regionUpTo 4) false
  exact hgiven (by decide)

theorem not_structured_regionUpTo :
    structureMethod? ⟨4, [], []⟩ [⟨4, [], .leave, []⟩] (regionUpTo 0) false = none := by decide +kernel

end JvmLift

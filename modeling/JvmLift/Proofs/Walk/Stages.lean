import JvmLift.Proofs.Walk.Derivation

/-!
# Every walk has a derivation

The walk runs in a bounded number of stages and gives up silently when there are none left. That never happens: each
stage writes a block, a loop or a protected region, or passes a skipped range.
-/
namespace JvmLift.Walk

open List

/-! ## States only grow -/

/-- What was written, opened or used stays so. -/
structure Grows (s s' : State) : Prop where
  visited : s.visited ⊆ s'.visited
  loops : s.loops ⊆ s'.loops
  tries : s.tries ⊆ s'.tries
  usedLabels : s.usedLabels ⊆ s'.usedLabels
  gotos : s.gotos ⊆ s'.gotos
  labelCount : s.labelCount ≤ s'.labelCount
  approximate : s'.approximate = false → s.approximate = false

namespace Grows

theorem refl (s : State) : Grows s s :=
  ⟨List.Subset.refl _, List.Subset.refl _, List.Subset.refl _, List.Subset.refl _, List.Subset.refl _,
    Nat.le_refl _, id⟩

theorem trans {s1 s2 s3} (h : Grows s1 s2) (h' : Grows s2 s3) : Grows s1 s3 where
  visited := List.Subset.trans h.visited h'.visited
  loops := List.Subset.trans h.loops h'.loops
  tries := List.Subset.trans h.tries h'.tries
  usedLabels := List.Subset.trans h.usedLabels h'.usedLabels
  gotos := List.Subset.trans h.gotos h'.gotos
  labelCount := Nat.le_trans h.labelCount h'.labelCount
  approximate := fun ha => h.approximate (h'.approximate ha)

variable (s : State)

theorem visit (b : BlockId) : Grows s (s.visit b) :=
  { refl s with visited := subset_cons_self _ _ }

theorem useLabel (j : Jump) : Grows s (s.useLabel j) :=
  { refl s with usedLabels := subset_append_right _ _ }

theorem noteGoto (b : BlockId) : Grows s (s.noteGoto b) :=
  { refl s with
    gotos := subset_cons_self _ _
    approximate := by simp [State.noteGoto] }

theorem takeLabel : Grows s s.takeLabel :=
  { refl s with labelCount := Nat.le_succ _ }

theorem openLoop (h : BlockId) : Grows s (s.openLoop h) :=
  { refl s with loops := subset_cons_self _ _ }

theorem openTry (i : Nat) : Grows s (s.openTry i) :=
  { refl s with tries := subset_cons_self _ _ }

theorem noteShape (plan : TryPlan) : Grows s (s.noteShape plan) := by
  unfold State.noteShape
  split
  · exact { refl s with approximate := by simp }
  · exact refl s

theorem visitCleanup (f : FinallyPlan) : Grows s (s.visitCleanup f) := by
  unfold State.visitCleanup
  split
  · exact ((visit s _).trans (visit _ _)).trans (visit _ _)
  · exact (visit s _).trans (visit _ _)

end Grows

section

variable {l : Layout} {strict : Bool}

mutual

theorem Region.grows {scopes b stop entering out s out' reached s'}
    (h : Region l strict scopes b stop entering out s out' reached s') : Grows s s' := by
  match h with
  | .stop => exact .refl _
  | .jump _ _ => exact .useLabel _ _
  | .goto _ _ _ => exact .noteGoto _ _
  | .skip _ _ hr => exact hr.grows
  | .outside _ _ _ => exact .refl _
  | .last _ _ _ hc => exact hc.grows
  | .next _ _ _ hc hr => exact hc.grows.trans hr.grows

theorem Construct.grows {scopes b stop out s next out' s'}
    (h : Construct l strict scopes b stop out s next out' s') : Grows s s' := by
  match h with
  | .goes _ _ _ | .ends _ _ _ => exact .visit _ _
  | .oneSided _ _ _ _ _ hr _ => exact (Grows.visit _ _).trans hr.grows
  | .twoSided _ _ _ _ _ hr1 hr2 => exact ((Grows.visit _ _).trans hr1.grows).trans hr2.grows
  | .switch _ _ _ _ ha => exact ((Grows.visit _ _).trans (.takeLabel _)).trans ha.grows
  | .guarded _ _ hr =>
      exact (((Grows.openLoop _ _).trans (.takeLabel _)).trans (.visit _ _)).trans hr.grows
  | .tested _ _ hr _ =>
      exact (((Grows.openLoop _ _).trans (.takeLabel _)).trans hr.grows).trans (.visit _ _)
  | .endless _ _ hr => exact ((Grows.openLoop _ _).trans (.takeLabel _)).trans hr.grows
  | .guard _ _ hr hc hd =>
      exact (((Grows.openTry _ _).trans hr.grows).trans hc.grows).trans (hd.grows.trans (.noteShape _ _))

theorem Part.grows {absent scopes b stop entering s body s'}
    (h : Part l strict absent scopes b stop entering s body s') : Grows s s' := by
  match h with
  | .absent => exact .refl _
  | .present hr => exact hr.grows

theorem Arms.grows {scopes default cases follow entries s arms s'}
    (h : Arms l strict scopes default cases follow entries s arms s') : Grows s s' := by
  match h with
  | .nil => exact .refl _
  | .cons hr ha => exact hr.grows.trans ha.grows

theorem Clauses.grows {scopes stop catches s clauses s'}
    (h : Clauses l strict scopes stop catches s clauses s') : Grows s s' := by
  match h with
  | .nil => exact .refl _
  | .cons hr hc => exact hr.grows.trans hc.grows

theorem Cleanup.grows {scopes sync f s cleanup s'} (h : Cleanup l strict scopes sync f s cleanup s') : Grows s s' := by
  match h with
  | .none => exact .refl _
  | .some hr => exact (Grows.visitCleanup _ _).trans hr.grows

end

end

/-! ## What is left to write -/

/-- Blocks, loops and protected regions that are not written yet. -/
def pending (l : Layout) (s : State) : Nat :=
  l.blocks.countP (fun b => !s.visited.contains b.id) +
    l.loops.countP (fun i => !s.loops.contains i.header) +
    (range l.protection.plans.length).countP (fun i => !s.tries.contains i)

def skipsFrom (l : Layout) (b : BlockId) : Nat := l.protection.skipped.countP (b ≤ ·.1)

variable {block : Block}

section

variable {l : Layout} {s s' : State} {b : BlockId}

variable {done : List Nat} {α : Type}

theorem countP_open_le (xs : List α) (f : α → Nat) {done'} (h : done ⊆ done') :
    xs.countP (fun x => !done'.contains (f x)) ≤ xs.countP (fun x => !done.contains (f x)) := by
  refine countP_mono_left fun x _ hx => ?_
  simp only [Bool.not_eq_true', contains_eq_mem, decide_eq_false_iff_not] at hx ⊢
  exact fun hd => hx (h hd)

theorem countP_open_lt {xs : List α} {f : α → Nat} {done'}
    (h : done ⊆ done') {x} (hx : x ∈ xs) (hnew : f x ∉ done) (hdone : f x ∈ done') :
    xs.countP (fun x => !done'.contains (f x)) + 1 ≤ xs.countP (fun x => !done.contains (f x)) := by
  obtain ⟨as, bs, rfl⟩ := append_of_mem hx
  have ha := countP_open_le as f h
  have hb := countP_open_le bs f h
  simp only [countP_append, countP_cons, contains_eq_mem, hnew, hdone] at ha hb ⊢
  simp
  omega

theorem Grows.pending_le (h : Grows s s') : pending l s' ≤ pending l s := by
  have hv := countP_open_le l.blocks (·.id) h.visited
  have hl := countP_open_le l.loops (·.header) h.loops
  have ht := countP_open_le (range l.protection.plans.length) id h.tries
  simp only [id_eq] at ht
  unfold pending
  omega

theorem find?_id {blocks} (h : Block.find? blocks b = some block) : block ∈ blocks ∧ block.id = b := by
  exact ⟨mem_of_find?_eq_some h, by simpa using find?_some h⟩

theorem pending_visit (hb : l.block? b = some block) (hv : b ∉ s.visited) :
    pending l (s.visit b) + 1 ≤ pending l s := by
  obtain ⟨hm, rfl⟩ := find?_id hb
  have := countP_open_lt (Grows.visit s block.id).visited hm hv (mem_cons_self ..)
  unfold pending
  simp only [State.visit] at this ⊢
  omega

variable {info : Loop}

theorem pendingLoop_some (h : pendingLoop l s b = some info) : info ∈ l.loops ∧ info.header = b ∧ b ∉ s.loops := by
  unfold pendingLoop at h
  split at h
  · cases h
  · rename_i hn
    exact ⟨mem_of_find?_eq_some h, by simpa using find?_some h, by simpa using hn⟩

theorem pending_openLoop (h : pendingLoop l s b = some info) : pending l (s.openLoop b) + 1 ≤ pending l s := by
  obtain ⟨hm, rfl, hn⟩ := pendingLoop_some h
  have := countP_open_lt (Grows.openLoop s info.header).loops hm hn
    (mem_cons_self ..)
  unfold pending
  simp only [State.openLoop] at this ⊢
  omega

theorem foldl_largerPlan {plans : List (Nat × TryPlan)} {best r} (h : plans.foldl Layout.largerPlan best = some r) :
    r ∈ plans ∨ best = some r := by
  induction plans generalizing best with
  | nil => exact .inr h
  | cons p ps ih =>
      rcases ih h with hm | he
      · exact .inl (mem_cons_of_mem _ hm)
      · unfold Layout.largerPlan at he
        split at he
        · split at he
          · cases he; exact .inl (mem_cons_self ..)
          · exact .inr he
        · cases he; exact .inl (mem_cons_self ..)

variable {plan : TryPlan}

theorem pendingTry_some {i} (h : l.pendingTry done b = some (i, plan)) : l.protection.plans[i]? = some plan ∧
    plan.start = b ∧ i ∉ done := by
  rcases foldl_largerPlan h with hm | he
  · simp only [mem_filter, mem_map, Prod.exists, Bool.and_eq_true,
      beq_iff_eq, Bool.not_eq_true', contains_eq_mem, decide_eq_false_iff_not] at hm
    obtain ⟨⟨p, j, hz, rfl, rfl⟩, hs, hn⟩ := hm
    exact ⟨mem_zipIdx_iff_getElem?.mp hz, hs, hn⟩
  · cases he

theorem not_loopAt (hl : l.loops = []) (h : LoopAt l s b info) : False := by
  have := (pendingLoop_some h.pending).1
  simp [hl] at this

theorem not_tryAt (hp : l.protection.plans = []) {index} (h : TryAt l s b index plan) : False := by
  have := (pendingTry_some h.pending).1
  simp [hp] at this

theorem pending_openTry {i} (h : l.pendingTry s.tries b = some (i, plan)) :
    pending l (s.openTry i) + 1 ≤ pending l s := by
  obtain ⟨hp, -, hn⟩ := pendingTry_some h
  have hm : i ∈ range l.protection.plans.length :=
    mem_range.mpr (List.getElem?_eq_some_iff.mp hp).1
  have := countP_open_lt (f := id) (Grows.openTry s i).tries hm hn (mem_cons_self ..)
  unfold pending
  simp only [State.openTry, id_eq] at this ⊢
  omega

theorem Grows.pending_lt {s1} (h : Grows s1 s') (hs : pending l s1 + 1 ≤ pending l s) :
    pending l s' + 1 ≤ pending l s :=
  Nat.le_trans (Nat.succ_le_succ h.pending_le) hs

theorem Construct.pending_lt {strict scopes stop out next out'}
    (h : Construct l strict scopes b stop out s next out' s') (hv : b ∉ s.visited) :
    pending l s' + 1 ≤ pending l s := by
  cases h with
  | goes _ hb _ | ends _ hb _ => exact pending_visit hb hv
  | oneSided _ hb _ _ _ hr _ => exact hr.grows.pending_lt (pending_visit hb hv)
  | twoSided _ hb _ _ _ hr1 hr2 => exact (hr1.grows.trans hr2.grows).pending_lt (pending_visit hb hv)
  | switch _ hb _ _ ha => exact ((Grows.takeLabel _).trans ha.grows).pending_lt (pending_visit hb hv)
  | guarded hl _ hr =>
      exact (((Grows.takeLabel _).trans (.visit _ _)).trans hr.grows).pending_lt (pending_openLoop hl.pending)
  | tested hl _ hr _ =>
      exact (((Grows.takeLabel _).trans hr.grows).trans (.visit _ _)).pending_lt (pending_openLoop hl.pending)
  | endless hl _ hr => exact ((Grows.takeLabel _).trans hr.grows).pending_lt (pending_openLoop hl.pending)
  | guard ht _ hr hc hd =>
      exact ((hr.grows.trans hc.grows).trans (hd.grows.trans (.noteShape _ _))).pending_lt (pending_openTry ht.pending)

theorem skipsFrom_past {past} (h : skipPast? l b = some past) : skipsFrom l past + 1 ≤ skipsFrom l b := by
  simp only [skipPast?, Protection.skipEnd?, Option.filter_eq_some_iff, Option.map_eq_some_iff,
    decide_eq_true_eq] at h
  obtain ⟨⟨r, hr, rfl⟩, hlt⟩ := h
  have hs : r.1 = b := by simpa using find?_some hr
  obtain ⟨as, bs, he⟩ := append_of_mem (mem_of_find?_eq_some hr)
  have hle : ∀ xs : List Range, xs.countP (r.2 ≤ ·.1) ≤ xs.countP (b ≤ ·.1) := fun xs =>
    countP_mono_left fun x _ hx => by
      simp only [decide_eq_true_eq] at hx ⊢
      exact Nat.le_trans (Nat.le_of_lt hlt) hx
  have ha := hle as
  have hb := hle bs
  unfold skipsFrom
  rw [he]
  simp only [countP_append, countP_cons, hs, Nat.le_refl, decide_true, ↓reduceIte]
  rw [if_neg (by simp; omega)]
  omega

theorem skipsFrom_le : skipsFrom l b ≤ l.protection.skipped.length := countP_le_length

end

/-! ## Runs of the parts -/

theorem run_bind {β} (x : Walker α) (f : α → Walker β) (s : State) :
    (x >>= f).run s = (f (x.run s).1).run (x.run s).2 := rfl

theorem run_pure (a : α) (s : State) : (pure a : Walker α).run s = (a, s) := rfl

theorem run_get (s : State) : (get : Walker State).run s = (s, s) := rfl

theorem run_ite_bind {β c} [Decidable c] (x y : Walker α) (f : α → Walker β) (s : State) :
    (if c then x >>= f else y >>= f).run s = ((if c then x else y) >>= f).run s := by
  split <;> rfl

theorem noteShape_run (plan : TryPlan) (s : State) : (noteShape plan).run s = ((), s.noteShape plan) := by
  unfold noteShape State.noteShape
  split <;> rfl

theorem jumpTo_run (scopes : List Enclosing) (b : BlockId) (s : State) : (jumpTo scopes b).run s =
      match findJump b true true scopes with
      | none => (none, s)
      | some j => (some j.tree, s.useLabel j) := by
  unfold jumpTo
  cases findJump b true true scopes <;> rfl

theorem endingJump_run (scopes : List Enclosing) (b : BlockId) (s : State) : (endingJump scopes b).run s =
      match findJump b true true scopes with
      | some j => (some j.tree, s.useLabel j)
      | none =>
          if b ∈ s.visited then (some (.goto (blockLabel b)), s.noteGoto b) else (none, s) := by
  unfold endingJump
  rw [run_bind, jumpTo_run]
  cases hj : findJump b true true scopes with
  | some j => rfl
  | none =>
      by_cases hv : b ∈ s.visited
      · simp only [run_bind, run_get, contains_iff_mem, hv]
        rfl
      · simp only [run_bind, run_get, contains_iff_mem, hv]
        rfl

variable {b : BlockId} {scopes : List Enclosing}

theorem findJump_of_isBreakTarget (h : isBreakTarget scopes b = true)
    (firstLoop first : Bool) : ∃ j, findJump b firstLoop first scopes = some j := by
  induction scopes generalizing firstLoop first with
  | nil => simp [isBreakTarget] at h
  | cons e rest ih =>
      unfold findJump
      split
      · exact ⟨_, rfl⟩
      · split
        · exact ⟨_, rfl⟩
        · rename_i hf
          refine ih ?_ _ _
          simpa [isBreakTarget, hf] using h

/-- A side that stands alone inside the `if` is expected to end, or stops where the other side starts. -/
theorem branchForm_oneSided {l taken fall stop armStop side ends}
    (h : branchForm l scopes taken fall stop = .oneSided side armStop ends) :
    ends = true ∧ (armStop = none ∨ armStop = stop) ∨ armStop = some (side.rest taken fall) := by
  unfold branchForm at h
  split at h
  · cases h
    exact .inl ⟨rfl, .inl rfl⟩
  split at h
  · cases h
    exact .inl ⟨rfl, .inl rfl⟩
  unfold mergeForm at h
  split at h
  · split at h
    · rename_i hm
      cases h
      exact .inr (congrArg some hm)
    · split at h <;> cases h
      rename_i hm
      exact .inr (congrArg some hm)
  · unfold splitForm at h
    dsimp only at h
    split at h <;> cases h
    exact .inl ⟨rfl, .inr rfl⟩

abbrev Derives (l : Layout) (scopes : List Enclosing) (b : BlockId) (stop : Option BlockId) (entering : Bool)
    (out : List Tree) (s : State) (r : (List Tree × Bool) × State) : Prop :=
  Region l false scopes b stop entering out s r.1.1 r.1.2 r.2

/-- A walk whose runs have derivations as long as at most `p` things are left to write. -/
def Walks (l : Layout) (walk : RegionWalk) (p : Nat) : Prop :=
  ∀ scopes b stop entering out s, (entering = true → b ∉ s.visited) → pending l s ≤ p →
    Derives l scopes b stop entering out s ((walk scopes b stop entering out).run s)

variable {s : State}

section

variable {l : Layout} {walk : RegionWalk} {p : Nat}

def writeForm (walk : RegionWalk) (scopes : List Enclosing) (e : Expr) (taken fall : BlockId)
    (out : List Tree) : BranchForm → Walker (Option BlockId × List Tree)
  | .oneSided side armStop _ => do
      let (body, _) ← walk scopes (side.arm taken fall) armStop false []
      return (some (side.rest taken fall), out ++ [ifThen (side.test e) body])
  | .twoSided armStop meets => do
      let (thenBody, a) ← walk scopes fall armStop false []
      let (elseBody, b) ← walk scopes taken armStop false []
      return (if meets || a || b then armStop else none, out ++ [ifBoth e.negate thenBody elseBody])

theorem splitBranch_eq (scopes : List Enclosing) (e : Expr) (taken fall : BlockId)
    (stop : Option BlockId) (out : List Tree) : splitBranch l walk scopes e taken fall stop out =
      writeForm walk scopes e taken fall out (splitForm l scopes taken fall stop) := by
  unfold splitBranch splitForm smallerSide
  dsimp only
  cases l.terminates (boundsOf scopes stop) fall <;>
    cases l.terminates (boundsOf scopes stop) taken <;>
    simp only [Bool.or_true, Bool.or_false, Bool.and_true, Bool.and_false, ↓reduceIte,
      Bool.false_eq_true, Bool.false_or, Side.arm, Side.rest, Side.test, writeForm]
  by_cases hle : (l.reach (boundsOf scopes stop) fall).size ≤ (l.reach (boundsOf scopes stop) taken).size <;>
    simp only [hle, ↓reduceIte]

theorem mergeBranch_eq (scopes : List Enclosing) (e : Expr) (taken fall : BlockId)
    (stop : Option BlockId) (out : List Tree) : mergeBranch l walk scopes e taken fall stop out =
      writeForm walk scopes e taken fall out (mergeForm l scopes taken fall stop) := by
  unfold mergeBranch mergeForm
  cases l.merge (boundsOf scopes stop) [taken, fall] with
  | none => exact splitBranch_eq ..
  | some m =>
      by_cases ht : m = taken
      · subst ht
        simp only [↓reduceIte, writeForm, Side.arm, Side.rest, Side.test]
      · by_cases hf : m = fall
        · subst hf
          simp only [ht, ↓reduceIte, writeForm, Side.arm, Side.rest, Side.test]
        · simp only [ht, hf, ↓reduceIte, writeForm, Bool.true_or]

variable {scopes : List Enclosing} {stop : Option BlockId} {out : List Tree}

section

variable (hw : Walks l walk p)

include hw

theorem branch_construct {e taken fall} (hp : Plain l s b)
    (hb : l.block? b = some block) (he : block.exit = .cond e taken fall) (hs : pending l (s.visit b) ≤ p) :
    let r := (branch l walk scopes e taken fall stop (out ++ blockTrees l b block)).run (s.visit b)
    Construct l false scopes b stop out s r.1.1 r.1.2 r.2 := by
  intro r
  have hr : r = (branch l walk scopes e taken fall stop (out ++ blockTrees l b block)).run
    (s.visit b) := rfl
  unfold branch breakSide at hr
  by_cases hne : taken = fall
  · subst hne
    simp only [↓reduceIte] at hr
    rw [hr]
    exact .goes hp hb (by simp [he, Exit.onlyTarget?])
  rw [if_neg hne] at hr
  by_cases ht : isBreakTarget scopes taken = true
  · -- the taken side is a jump
    obtain ⟨j, hj⟩ := findJump_of_isBreakTarget ht true true
    have hform : branchForm l scopes taken fall stop = .oneSided .taken none true := by
      simp [branchForm, ht]
    simp only [ht, ↓reduceIte, run_bind, jumpTo_run, hj] at hr
    rw [hr]
    exact .oneSided hp hb he hne hform (.jump (by simp) hj) (by simp)
  simp only [ht, ↓reduceIte, run_bind, run_pure, Bool.false_eq_true] at hr
  by_cases hf : isBreakTarget scopes fall = true
  · obtain ⟨j, hj⟩ := findJump_of_isBreakTarget hf true true
    have hform : branchForm l scopes taken fall stop = .oneSided .fall none true := by
      simp [branchForm, ht, hf]
    simp only [hf, ↓reduceIte, jumpTo_run, hj] at hr
    rw [hr]
    exact .oneSided hp hb he hne hform (.jump (by simp) hj) (by simp)
  simp only [hf, mergeBranch_eq] at hr
  have hform : branchForm l scopes taken fall stop = mergeForm l scopes taken fall stop := by
    simp [branchForm, ht, hf]
  rw [hr]
  cases hm : mergeForm l scopes taken fall stop with
  | oneSided side armStop ends =>
      exact .oneSided hp hb he hne (hform.trans hm) (hw _ _ _ _ _ _ (by simp) hs) (by simp)
  | twoSided armStop meets =>
      have hr1 := hw scopes fall armStop false [] (s.visit b) (by simp) hs
      exact .twoSided hp hb he hne (hform.trans hm) hr1
        (hw _ _ _ _ _ _ (by simp) (Nat.le_trans hr1.grows.pending_le hs))

theorem switchArms_arms (scopes : List Enclosing) (default : BlockId)
    (cases : List (Int32 × BlockId)) (follow : Option BlockId) (entries : List BlockId) (s : State)
    (hs : pending l s ≤ p) : Arms l false scopes default cases follow entries s
      ((switchArms walk scopes default cases follow entries).run s).1
      ((switchArms walk scopes default cases follow entries).run s).2 := by
  induction entries generalizing s with
  | nil => exact .nil
  | cons entry rest ih =>
      have hr := hw scopes entry (rest.head?.or follow) false [] s (by simp) hs
      exact .cons hr (ih _ (Nat.le_trans hr.grows.pending_le hs))

theorem node_construct (hp : Plain l s b) (hb : l.isBlock b = true) (hv : b ∉ s.visited)
    (hs : pending l s ≤ p + 1) : let r := (node l walk scopes b stop out).run s
    Construct l false scopes b stop out s r.1.1 r.1.2 r.2 := by
  intro r
  obtain ⟨block, hb⟩ := Option.isSome_iff_exists.mp hb
  have hs : pending l (s.visit b) ≤ p := by
    have := pending_visit hb hv
    omega
  have hr : r = (node l walk scopes b stop out).run s := rfl
  unfold node at hr
  simp only [hb, append_assoc] at hr
  rw [hr]
  cases he : block.exit with
  | fall t | goto t => exact .goes hp hb (by simp [he, Exit.onlyTarget?])
  | leave | throw | ret => exact .ends hp hb (by simp [he, Exit.isEnd])
  | cond e taken fall => exact branch_construct hw hp hb he hs
  | switch key default cases =>
      have ha := switchArms_arms hw
        (⟨none, followOf l scopes stop default cases, s.labelCount + 1⟩ :: scopes) default cases
        (followOf l scopes stop default cases)
        (entriesOf default cases (followOf l scopes stop default cases)) (s.visit b).takeLabel
        (Nat.le_trans (Grows.takeLabel _).pending_le hs)
      exact .switch hp hb he rfl ha

theorem part_of_walks (absent : Prop) [Decidable absent]
    (scopes : List Enclosing) (b : BlockId) (stop : Option BlockId) (entering : Bool) (s : State)
    (hv : entering = true → b ∉ s.visited) (hs : pending l s ≤ p) :
    let r := (if absent then pure ([], false) else walk scopes b stop entering []).run s
    Part l false (decide absent) scopes b stop entering s r.1.1 r.2 := by
  by_cases ha : absent
  · simp only [ha]
    exact .absent
  · simp only [ha]
    exact .present (hw _ _ _ _ _ _ hv hs)

theorem loop_construct (hl : LoopAt l s b info) (hv : b ∉ s.visited)
    (hs : pending l s ≤ p + 1) : let r := (loop l walk scopes info out).run s
    Construct l false scopes b stop out s r.1.1 r.1.2 r.2 := by
  intro r
  obtain ⟨-, rfl, -⟩ := pendingLoop_some hl.pending
  have hs : pending l (s.openLoop info.header).takeLabel ≤ p := by
    have := pending_openLoop hl.pending
    have := (Grows.takeLabel (s.openLoop info.header)).pending_le (l := l)
    omega
  have hr : r = (loop l walk scopes info out).run s := rfl
  unfold loop at hr
  simp only [run_bind] at hr
  rw [hr]
  cases hf : l.loopForm info with
  | guarded test inside follow =>
      simp only [run_bind, run_ite_bind]
      have hpart := part_of_walks hw (inside = info.header)
        (⟨some info.header, some follow, s.labelCount + 1⟩ :: scopes) inside none false
        ((s.openLoop info.header).takeLabel.visit info.header) (by simp)
        (Nat.le_trans (Grows.visit _ _).pending_le hs)
      exact .guarded hl hf hpart
  | tested latch test follow =>
      simp only [run_ite_bind]
      have hpart := part_of_walks hw (latch = info.header)
        (⟨some latch, some follow, s.labelCount + 1⟩ :: scopes) info.header (some latch) true
        (s.openLoop info.header).takeLabel (fun _ => hv) hs
      exact .tested hl hf hpart (by simp)
  | endless follow =>
      exact .endless hl hf (hw _ _ _ _ _ _ (fun _ => hv) hs)

end

theorem catchClauses_run (scopes : List Enclosing) (stop : Option BlockId) (c : CatchPlan)
    (rest : List CatchPlan) (s : State) : (catchClauses walk scopes stop (c :: rest)).run s =
      let r := (if s.visited.contains c.handler then pure ([], false) else walk scopes c.handler stop false []).run s
      let q := (catchClauses walk scopes stop rest).run r.2
      ((⟨c.types, (takeCaught c.types r.1.1).1⟩, (takeCaught c.types r.1.1).2) :: q.1, q.2) := by
  conv => lhs; unfold catchClauses
  simp only [run_bind, run_get]
  by_cases hv : s.visited.contains c.handler = true <;> simp only [hv] <;> rfl

theorem catchClauses_clauses (hw : Walks l walk p) (scopes : List Enclosing) (stop : Option BlockId)
    (catches : List CatchPlan) (s : State) (hs : pending l s ≤ p) :
    Clauses l false scopes stop catches s ((catchClauses walk scopes stop catches).run s).1
      ((catchClauses walk scopes stop catches).run s).2 := by
  induction catches generalizing s with
  | nil => exact .nil
  | cons c rest ih =>
      have hpart := part_of_walks hw (s.visited.contains c.handler = true) scopes c.handler stop false
        s (by simp) hs
      rw [Bool.decide_eq_true] at hpart
      rw [catchClauses_run]
      exact .cons hpart (ih _ (Nat.le_trans hpart.grows.pending_le hs))

theorem finalizer_run (scopes : List Enclosing) (sync : Bool) (f : FinallyPlan) (s : State) :
    (finalizer walk scopes sync (some f)).run s =
      let r := (if f.bodyStart = f.bodyStop ∨ sync then pure ([], false)
        else walk scopes f.bodyStart (some f.bodyStop) false []).run (s.visitCleanup f)
      (some r.1.1, r.2) := by
  unfold finalizer State.visitCleanup
  by_cases hbody : f.bodyStart = f.bodyStop ∨ sync = true <;> simp only [hbody] <;>
    cases f.subroutine <;> rfl

theorem finalizer_cleanup (hw : Walks l walk p) (scopes : List Enclosing) (sync : Bool)
    (f : Option FinallyPlan) (s : State) (hs : pending l s ≤ p) :
    Cleanup l false scopes sync f s ((finalizer walk scopes sync f).run s).1
      ((finalizer walk scopes sync f).run s).2 := by
  cases f with
  | none => exact .none
  | some f =>
      have hpart := part_of_walks hw (f.bodyStart = f.bodyStop ∨ sync = true) scopes f.bodyStart
        (some f.bodyStop) false (s.visitCleanup f) (by simp)
        (Nat.le_trans (Grows.visitCleanup _ _).pending_le hs)
      have habs : decide (f.bodyStart = f.bodyStop ∨ sync = true) =
          (f.bodyStart == f.bodyStop || sync) := by
        rw [Bool.eq_iff_iff]; simp
      rw [habs] at hpart
      rw [finalizer_run]
      exact .some hpart

theorem region_construct (hw : Walks l walk p) {index} (ht : TryAt l s b index plan) (hv : b ∉ s.visited)
    (hs : pending l s ≤ p + 1) : let r := (region l walk scopes index plan stop out).run s
    Construct l false scopes b stop out s r.1.1 r.1.2 r.2 := by
  intro r
  obtain ⟨-, hstart, -⟩ := pendingTry_some ht.pending
  have hs : pending l (s.openTry index) ≤ p := by
    have := pending_openTry ht.pending
    omega
  have hr : r = (region l walk scopes index plan stop out).run s := rfl
  unfold region at hr
  simp only [run_bind, noteShape_run] at hr
  have hbody := hw scopes plan.start
    ((l.tryFollow (index :: s.tries) (boundsOf scopes stop) plan).or stop) true [] (s.openTry index)
    (fun _ => hstart ▸ hv) hs
  have hs1 := Nat.le_trans hbody.grows.pending_le hs
  have hclauses := catchClauses_clauses hw scopes
    ((l.tryFollow (index :: s.tries) (boundsOf scopes stop) plan).or stop) plan.catches _ hs1
  have hs2 := Nat.le_trans hclauses.grows.pending_le hs1
  have hcleanup := finalizer_cleanup hw scopes plan.shape.isSynchronized plan.cleanup _ hs2
  have hc : Construct l false scopes b stop out s _ _ _ := .guard ht rfl hbody hclauses hcleanup
  rw [hr]
  unfold tryTrees at hc
  cases hsync : plan.shape.isSynchronized <;> simp only [hsync] at hc ⊢
  · exact hc
  · exact hc

theorem construct_construct (hw : Walks l walk p) (scopes : List Enclosing) (stop : Option BlockId)
    (out : List Tree) (hb : l.isBlock b = true) (hv : b ∉ s.visited) (hs : pending l s ≤ p + 1) :
    let r := (construct l walk scopes b stop out).run s
    Construct l false scopes b stop out s r.1.1 r.1.2 r.2 := by
  intro r
  have hr : r = (construct l walk scopes b stop out).run s := rfl
  unfold construct at hr
  simp only [run_bind, run_get] at hr
  rw [hr]
  split
  · rename_i i plan info htry hloop
    split
    · rename_i hc
      exact region_construct hw ⟨htry, by rintro _ h; cases hloop.symm.trans h; exact hc⟩ hv hs
    · rename_i hc
      refine loop_construct hw ⟨hloop, ?_⟩ hv hs
      rintro _ _ h
      cases htry.symm.trans h
      simpa using hc
  · rename_i i plan htry hloop
    have hloop : pendingLoop l s b = none := hloop
    exact region_construct hw ⟨htry, by simp [hloop]⟩ hv hs
  · rename_i info htry hloop
    exact loop_construct hw ⟨hloop, by simp [htry]⟩ hv hs
  · rename_i htry hloop
    exact node_construct hw ⟨htry, hloop⟩ hb hv hs

end

/-! ## Enough stages -/

/-- Stages that suffice from a block on. -/
def stagesFrom (l : Layout) (s : State) (b : BlockId) : Nat :=
  pending l s * (l.protection.skipped.length + 1) + skipsFrom l b + 1

/-- What a stage does when no jump ends the region: it passes something over or writes it. -/
def writeAt (l : Layout) (n : Nat) (scopes : List Enclosing) (b : BlockId) (stop : Option BlockId)
    (out : List Tree) : Walker (List Tree × Bool) :=
  match skipPast? l b with
  | some past => blocksFrom l n scopes past stop false out
  | none =>
      if l.isBlock b then do
        match ← construct l (blocksFrom l n) scopes b stop out with
        | (some next, out) => blocksFrom l n scopes next stop false out
        | (none, out) => return (out, false)
      else return (out, false)

variable {stop : Option BlockId}

theorem blocksFrom_entering (l : Layout) (n : Nat) (scopes : List Enclosing) (out : List Tree) (s : State)
    (hstop : some b ≠ stop) :
    (blocksFrom l (n + 1) scopes b stop true out).run s = (writeAt l n scopes b stop out).run s := by
  conv => lhs; unfold blocksFrom
  rw [if_neg hstop]
  rfl

theorem blocksFrom_going (l : Layout) (n : Nat) (scopes : List Enclosing) (out : List Tree) (s : State)
    (hstop : some b ≠ stop) : (blocksFrom l (n + 1) scopes b stop false out).run s =
      match (endingJump scopes b).run s with
      | (some jump, s) => ((out ++ [jump], false), s)
      | (none, s) => (writeAt l n scopes b stop out).run s := by
  conv => lhs; unfold blocksFrom
  rw [if_neg hstop]
  change StateT.run (endingJump scopes b >>= _) s = _
  rw [run_bind]
  rcases (endingJump scopes b).run s with ⟨_ | jump, s⟩ <;> rfl

theorem writeAt_region {l n entering} (out : List Tree)
    (ih : ∀ scopes b stop entering out s, (entering = true → b ∉ s.visited) → stagesFrom l s b ≤ n →
      Derives l scopes b stop entering out s ((blocksFrom l n scopes b stop entering out).run s))
    (hn : stagesFrom l s b ≤ n + 1) (ha : Arrives scopes b stop entering s) :
    Derives l scopes b stop entering out s ((writeAt l n scopes b stop out).run s) := by
  have hnext : ∀ b' s', pending l s' + 1 ≤ pending l s → stagesFrom l s' b' ≤ n := by
    intro b' s' hs
    have hskips := skipsFrom_le (l := l) (b := b')
    have := Nat.mul_le_mul_right (l.protection.skipped.length + 1) hs
    unfold stagesFrom at hn ⊢
    rw [Nat.add_mul] at this
    omega
  unfold writeAt
  cases hp : skipPast? l b with
  | some past =>
      refine .skip ha hp (ih _ _ _ _ _ _ (by simp) ?_)
      have := skipsFrom_past hp
      unfold stagesFrom at hn ⊢
      omega
  | none =>
      by_cases hb : l.isBlock b = true
      · obtain ⟨block, hblock⟩ := Option.isSome_iff_exists.mp hb
        have hpos := pending_visit hblock ha.fresh
        have hw : Walks l (blocksFrom l n) (pending l s - 1) := by
          intro scopes' b' stop' entering' out' s' hv' hs'
          exact ih _ _ _ _ _ _ hv' (hnext _ _ (by omega))
        have hc := construct_construct hw scopes stop out hb ha.fresh (by omega)
        simp only [hb, ↓reduceIte, run_bind]
        generalize (construct l (blocksFrom l n) scopes b stop out).run s = r at hc
        obtain ⟨⟨_ | next, out'⟩, s'⟩ := r
        · exact .last ha hp hb hc
        · exact .next ha hp hb hc (ih _ _ _ _ _ _ (by simp) (hnext _ _ (hc.pending_lt ha.fresh)))
      · simp only [hb]
        exact .outside ha hp (by simpa using hb)

theorem blocksFrom_region (l : Layout) (n : Nat) (scopes : List Enclosing) (b : BlockId)
    (stop : Option BlockId) (entering : Bool) (out : List Tree) (s : State)
    (hv : entering = true → b ∉ s.visited) (hn : stagesFrom l s b ≤ n) :
    Derives l scopes b stop entering out s ((blocksFrom l n scopes b stop entering out).run s) := by
  induction n generalizing scopes b stop entering out s with
  | zero => simp [stagesFrom] at hn
  | succ n ih =>
      by_cases hstop : some b = stop
      · have hrun : (blocksFrom l (n + 1) scopes b stop entering out).run s = ((out, true), s) := by
          unfold blocksFrom
          rw [if_pos hstop]
          rfl
        rw [hrun]
        exact hstop ▸ .stop
      cases entering with
      | true =>
          rw [blocksFrom_entering l n scopes out s hstop]
          exact writeAt_region out ih hn ⟨hstop, hv rfl, by simp⟩
      | false =>
          rw [blocksFrom_going l n scopes out s hstop, endingJump_run]
          cases hj : findJump b true true scopes with
          | some j => exact .jump hstop hj
          | none =>
              by_cases hvis : b ∈ s.visited
              · simp only [hvis]
                exact .goto hstop hj hvis
              · simp only [hvis]
                exact writeAt_region out ih hn ⟨hstop, hvis, fun _ => hj⟩

theorem stagesFrom_le (l : Layout) (s : State) (b : BlockId) : stagesFrom l s b ≤ stages l := by
  have hle : pending l s ≤ l.blocks.length + l.loops.length + l.protection.plans.length := by
    have := countP_le_length (l := range l.protection.plans.length)
      (p := fun i => !s.tries.contains i)
    rw [length_range] at this
    exact Nat.add_le_add (Nat.add_le_add countP_le_length countP_le_length) this
  have hskips := skipsFrom_le (l := l) (b := b)
  have := Nat.mul_le_mul_right (l.protection.skipped.length + 1) hle
  unfold stagesFrom stages
  rw [Nat.add_mul _ 1]
  omega

theorem run_region (l : Layout) (entry : BlockId) (h : l.isBlock entry = true) :
    ∃ reached, Region l false [] entry none false [] .initial (run l entry).1 reached (run l entry).2 := by
  have hr := blocksFrom_region l (stages l) [] entry none false [] .initial (by simp) (stagesFrom_le l _ _)
  unfold run
  rw [if_pos h]
  exact ⟨_, hr⟩

end JvmLift.Walk

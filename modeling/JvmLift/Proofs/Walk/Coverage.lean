import JvmLift.Proofs.Structure.Layout
import JvmLift.Proofs.Walk.Stages

/-!
# What a walk owes

A set of blocks is covered when each of their successors is in the set or was handed on: to the stop, to a place of an
enclosing construct, to a jump. Blocks of finalizers are not in the set, since what follows a finalizer is written
elsewhere.
-/
namespace JvmLift

open List

variable {s s' : State} {scopes : List Enclosing} {stop : Option BlockId} {b : BlockId}

namespace Walk

/-! ## Places to go on later -/

def targetsOf (scopes : List Enclosing) : List BlockId :=
  scopes.flatMap fun e => e.continueTarget.toList ++ e.follow.toList

variable {scopes : List Enclosing} {b : BlockId}

theorem mem_targetsOf_cons {e} : b ∈ targetsOf (e :: scopes) ↔
    e.continueTarget = some b ∨ e.follow = some b ∨ b ∈ targetsOf scopes := by
  simp [targetsOf]

theorem findJump_eq_none {firstLoop first} : findJump b firstLoop first scopes = none ↔ b ∉ targetsOf scopes := by
  induction scopes generalizing firstLoop first with
  | nil => simp [findJump, targetsOf]
  | cons e rest ih =>
      unfold findJump
      rw [mem_targetsOf_cons]
      split
      · simp_all
      · split
        · simp_all
        · rename_i h1 h2
          rw [ih]
          simp [h1, h2]

theorem mem_targetsOf_of_findJump {firstLoop first j} (h : findJump b firstLoop first scopes = some j) :
    b ∈ targetsOf scopes := by
  by_contra hb
  rw [findJump_eq_none.mpr hb] at h
  cases h

/-- The block was written, and some jump was left behind. -/
def GivenUp (s : State) (b : BlockId) : Prop := s.approximate = true ∧ b ∈ s.visited

theorem GivenUp.grow (h : GivenUp s b) (hg : Grows s s') : GivenUp s' b := by
  refine ⟨?_, hg.visited h.2⟩
  by_contra ha
  exact absurd h.1 (by simp [hg.approximate (by simpa using ha)])

/-- The walk goes on at a block later, or cannot and says so. -/
def Deferred (scopes : List Enclosing) (stop : Option BlockId) (s : State) (b : BlockId) : Prop :=
  some b = stop ∨ b ∈ targetsOf scopes ∨ GivenUp s b

theorem Deferred.grow (h : Deferred scopes stop s b) (hg : Grows s s') : Deferred scopes stop s' b :=
  h.imp_right (Or.imp_right (·.grow hg))

theorem mem_boundsOf : b ∈ boundsOf scopes stop ↔ some b = stop ∨ b ∈ targetsOf scopes := by
  simp only [boundsOf, targetsOf, mem_append, Option.mem_toList, mem_flatMap]
  constructor
  · rintro (h | ⟨e, he, h⟩)
    · exact .inl h.symm
    · exact .inr ⟨e, he, h.symm⟩
  · rintro (h | ⟨e, he, h⟩)
    · exact .inl h.symm
    · exact .inr ⟨e, he, h.symm⟩

variable {stop' : Option BlockId}

theorem Deferred.stop_or (h : Deferred scopes stop' s b) (stop : Option BlockId) :
    some b = stop' ∨ Deferred scopes stop s b :=
  h.imp_right .inr

theorem Deferred.cases_cons {e} (h : Deferred (e :: scopes) stop' s b) (stop : Option BlockId) :
    some b = stop' ∨ e.continueTarget = some b ∨ e.follow = some b ∨ Deferred scopes stop s b := by
  rcases h with h | h | h
  · exact .inl h
  · rcases mem_targetsOf_cons.mp h with h | h | h
    · exact .inr (.inl h)
    · exact .inr (.inr (.inl h))
    · exact .inr (.inr (.inr (.inr (.inl h))))
  · exact .inr (.inr (.inr (.inr (.inr h))))

/-! ## Regions that are opened -/

end Walk

/-- No loop swallows the start of the region: one tested in front whose header it is, or tested at a
latch that it is, lies inside the region. -/
def Layout.Opens (l : Layout) (plan : TryPlan) : Prop :=
  ∀ info ∈ l.loops,
    (∀ test inside follow, l.loopForm info = .guarded test inside follow →
      info.header = plan.start → info.body.all plan.contains = true) ∧
    ∀ latch test follow, l.loopForm info = .tested latch test follow →
      latch = plan.start → latch = info.header ∧ info.body.all plan.contains = true

/-- Control never goes on at the start of the region after it, where the start is a place of an
enclosing construct. If it did, the body would stop at its first block. -/
def Layout.MovesOn (l : Layout) (plan : TryPlan) : Prop :=
  ∀ labels done bounds, plan.start ∈ bounds →
    { l with labels }.tryFollow done bounds plan ≠ some plan.start

/-- Some region at the block is followed by its own start. -/
def Layout.Stuck (l : Layout) (b : BlockId) : Prop :=
  ∃ plan ∈ l.protection.plans, plan.start = b ∧ ¬l.MovesOn plan

/-- No other region that is opened first keeps the region from being opened. -/
def Layout.InTurn (l : Layout) (plan : TryPlan) : Prop :=
  ∀ q ∈ l.protection.plans, q.start = plan.start → plan.size ≤ q.size → q ≠ plan →
    q.isInverted = false ∧ l.MovesOn q

namespace Walk

theorem foldl_largerPlan_ge (plans : List (Nat × TryPlan)) (best : Option (Nat × TryPlan))
    (p : Nat × TryPlan) (hp : p ∈ plans ∨ best = some p) :
    ∃ q, plans.foldl Layout.largerPlan best = some q ∧ p.2.size ≤ q.2.size := by
  induction plans generalizing best p with
  | nil =>
      rcases hp with hp | rfl
      · cases hp
      · exact ⟨p, rfl, Nat.le_refl _⟩
  | cons c rest ih =>
      have hstep : ∀ r, r = c ∨ best = some r →
          ∃ q, Layout.largerPlan best c = some q ∧ r.2.size ≤ q.2.size := by
        intro r hr
        unfold Layout.largerPlan
        split
        · rename_i b
          by_cases hle : b.2.size ≤ c.2.size
          · rw [if_pos hle]
            rcases hr with rfl | hr
            · exact ⟨r, rfl, Nat.le_refl _⟩
            · cases hr
              exact ⟨c, rfl, hle⟩
          · rw [if_neg hle]
            rcases hr with rfl | hr
            · exact ⟨b, rfl, by omega⟩
            · cases hr
              exact ⟨r, rfl, Nat.le_refl _⟩
        · rcases hr with rfl | hr
          · exact ⟨r, rfl, Nat.le_refl _⟩
          · cases hr
      rcases hp with hp | hp
      · rcases mem_cons.mp hp with rfl | hp
        · obtain ⟨q, hq, hle⟩ := hstep p (.inl rfl)
          obtain ⟨q', hq', hle'⟩ := ih _ q (.inr hq)
          exact ⟨q', hq', Nat.le_trans hle hle'⟩
        · exact ih _ p (.inl hp)
      · obtain ⟨q, hq, hle⟩ := hstep p (.inr hp)
        obtain ⟨q', hq', hle'⟩ := ih _ q (.inr hq)
        exact ⟨q', hq', Nat.le_trans hle hle'⟩

variable {plan : TryPlan} {l : Layout}

theorem pendingTry_ge {done i} (hp : l.protection.plans[i]? = some plan) (hi : i ∉ done) :
    ∃ j p, l.pendingTry done plan.start = some (j, p) ∧ plan.size ≤ p.size := by
  have hge : ∀ plans : List (Nat × TryPlan), (i, plan) ∈ plans →
      ∃ j p, plans.foldl Layout.largerPlan none = some (j, p) ∧ plan.size ≤ p.size := by
    intro plans hm
    obtain ⟨q, hq, hle⟩ := foldl_largerPlan_ge plans none (i, plan) (.inl hm)
    exact ⟨q.1, q.2, hq, hle⟩
  apply hge
  simp only [mem_filter, mem_map, Prod.exists, Prod.mk.injEq, beq_self_eq_true,
    Bool.true_and, Bool.not_eq_true', contains_eq_mem, decide_eq_false_iff_not]
  exact ⟨⟨plan, i, mem_zipIdx_iff_getElem?.mpr hp, rfl, rfl⟩, hi⟩

/-- Every region that is opened at a block has been opened. -/
def AllOpen (l : Layout) (tries : List Nat) (b : BlockId) : Prop :=
  ∀ plan ∈ l.protection.plans, plan.start = b → l.Opens plan → l.InTurn plan →
    ∃ i ∈ tries, l.protection.plans[i]? = some plan

theorem pendingTry_of_not_open {done} (hp : plan ∈ l.protection.plans)
    (hn : ¬∃ i ∈ done, l.protection.plans[i]? = some plan) :
    ∃ j p, l.pendingTry done plan.start = some (j, p) ∧ plan.size ≤ p.size := by
  obtain ⟨i, hi⟩ := mem_iff_getElem?.mp hp
  exact pendingTry_ge hi fun hd => hn ⟨i, hd, hi⟩

theorem AllOpen.mono {tries tries'} (h : AllOpen l tries b) (hsub : tries ⊆ tries') : AllOpen l tries' b := by
  intro plan hp hs ho ht
  obtain ⟨i, hi, hplan⟩ := h plan hp hs ho ht
  exact ⟨i, hsub hi, hplan⟩

theorem Plain.allOpen (h : Plain l s b) : AllOpen l s.tries b := by
  rintro plan hp rfl - -
  by_contra hn
  obtain ⟨j, p, hj, -⟩ := pendingTry_of_not_open hp hn
  rw [h.no_try] at hj
  cases hj

theorem TryAt.allOpen {index} (h : TryAt l s b index plan) (hm : ¬l.MovesOn plan) : AllOpen l (index :: s.tries) b := by
  rintro q hq rfl - hturn
  by_contra hn
  obtain ⟨hplan, hstart, -⟩ := pendingTry_some h.pending
  have hbefore : ¬∃ i ∈ s.tries, l.protection.plans[i]? = some q :=
    fun ⟨i, hi, hiq⟩ => hn ⟨i, mem_cons_of_mem _ hi, hiq⟩
  obtain ⟨j, r, hj, hle⟩ := pendingTry_of_not_open hq hbefore
  obtain ⟨rfl, rfl⟩ : index = j ∧ plan = r := by
    simpa using h.pending.symm.trans hj
  refine hm (hturn plan (List.mem_of_getElem? hplan) hstart hle fun heq => ?_).2
  exact hn ⟨index, mem_cons_self .., heq ▸ hplan⟩

variable {info : Loop}

theorem LoopAt.allOpen (h : LoopAt l s b info)
    (hopens : ∀ plan, l.Opens plan → plan.start = b → info.body.all plan.contains = true) : AllOpen l s.tries b := by
  rintro plan hp rfl ho hturn
  by_contra hn
  obtain ⟨j, p, hj, hle⟩ := pendingTry_of_not_open hp hn
  obtain ⟨hmem, hstart, -⟩ := pendingTry_some hj
  have hbody := hopens plan ho rfl
  refine absurd (h.uncovered j p hj) ?_
  rw [Bool.not_eq_false]
  by_cases heq : p = plan
  · exact heq ▸ hbody
  · have hp' := (hturn p (List.mem_of_getElem? hmem) hstart hle heq).1
    refine all_eq_true.mpr fun x hx => ?_
    have hx := all_eq_true.mp hbody x hx
    simp only [TryPlan.contains, TryPlan.size, TryPlan.isInverted, Bool.and_eq_true, decide_eq_true_eq,
      decide_eq_false_iff_not] at *
    grind

/-! ## Covered blocks -/

/-- The blocks `W` are written between two states: successors outside of `W` come later, and regions
that start in `W` are open. Where a region does not move on, nothing is known of what it contains. -/
structure Covers (l : Layout) (s s' : State) (W later : BlockId → Prop) : Prop where
  visited : ∀ v, W v → ¬l.Stuck v → v ∈ s'.visited
  all : l.protection.plans = [] → ∀ v ∈ s'.visited, v ∈ s.visited ∨ W v
  succs : ∀ v, W v → ¬l.Stuck v → ∀ w ∈ l.succs v, skipPast? l w = none → W w ∨ later w
  tries : ∀ v, W v → AllOpen l s'.tries v

section

variable {l : Layout} {s s1 s' : State} {W W1 W2 later later1 later2 : BlockId → Prop}

theorem Covers.empty (h : s'.visited = s.visited) : Covers l s s' (fun _ => False) later where
  visited _ h := h.elim
  all _ _ hv := .inl (h ▸ hv)
  succs _ h := h.elim
  tries _ h := h.elim

theorem Covers.visit (ho : AllOpen l s.tries b) : Covers l s (s.visit b) (· = b) (· ∈ l.succs b) where
  visited _ h _ := h ▸ mem_cons_self ..
  all _ _ h := (mem_cons.mp h).symm
  succs _ h _ _ hw _ := .inr (h ▸ hw)
  tries _ h := h ▸ ho

theorem Covers.union (h1 : Covers l s s1 W1 later1) (h2 : Covers l s1 s' W2 later2) (hg : Grows s1 s')
    (hl1 : ∀ w, l.isBlock w = true → skipPast? l w = none → later1 w → W1 w ∨ W2 w ∨ later w)
    (hl2 : ∀ w, l.isBlock w = true → skipPast? l w = none → later2 w → W1 w ∨ W2 w ∨ later w)
    (hf : l.Fits) : Covers l s s' (fun v => W1 v ∨ W2 v) later where
  visited v h hn := h.elim (fun h => hg.visited (h1.visited v h hn)) (fun h => h2.visited v h hn)
  all hp v hv := by
    rcases h2.all hp v hv with hv | hv
    · exact (h1.all hp v hv).imp_right .inl
    · exact .inr (.inr hv)
  succs v hv hn w hw hskip := by
    have hb := (hf.isBlock_of_mem_succs hw).2
    rw [or_assoc]
    rcases hv with hv | hv
    · rcases h1.succs v hv hn w hw hskip with h | h
      · exact .inl h
      · exact hl1 w hb hskip h
    · rcases h2.succs v hv hn w hw hskip with h | h
      · exact .inr (.inl h)
      · exact hl2 w hb hskip h
  tries v hv := hv.elim (fun h => (h1.tries v h).mono hg.tries) (h2.tries v)

theorem Covers.of_visited_eq (h : Covers l s1 s' W later) (hv : s1.visited = s.visited) : Covers l s s' W later :=
  { h with all := hv ▸ h.all }

theorem Covers.imp (h : Covers l s s' W later1)
    (hl : ∀ w, l.isBlock w = true → skipPast? l w = none → later1 w → W w ∨ later w) (hf : l.Fits) :
    Covers l s s' W later :=
  { h with
    succs := fun v hv hn w hw hskip => (h.succs v hv hn w hw hskip).elim .inl
      (hl w (hf.isBlock_of_mem_succs hw).2 hskip) }

theorem Covers.grow (h : Covers l s s1 W later) (hg : Grows s1 s') (hp : l.protection.plans ≠ []) :
    Covers l s s' W later where
  visited v hv hn := hg.visited (h.visited v hv hn)
  all hn := absurd hn hp
  succs := h.succs
  tries v hv := (h.tries v hv).mono hg.tries

theorem Covers.stuck (hs : l.Stuck b) (ho : AllOpen l s'.tries b) : Covers l s s' (· = b) later where
  visited _ h hn := absurd (h ▸ hs) hn
  all hp := by
    obtain ⟨plan, hplan, -⟩ := hs
    simp [hp] at hplan
  succs _ h hn := absurd (h ▸ hs) hn
  tries _ h := h ▸ ho

end

/-! ## Forms of a branch -/

variable {fall : BlockId} {armStop : Option BlockId}

theorem branchForm_twoSided {taken meets} (h : branchForm l scopes taken fall stop = .twoSided armStop meets) :
    (meets = true ∧ l.merge (boundsOf scopes stop) [taken, fall] = armStop) ∨ armStop = stop := by
  unfold branchForm at h
  split at h
  · cases h
  split at h
  · cases h
  unfold mergeForm at h
  split at h
  · rename_i m hm
    split at h
    · cases h
    · split at h
      · cases h
      · cases h
        exact .inl ⟨rfl, hm⟩
  · unfold splitForm at h
    dsimp only at h
    split at h <;> cases h
    exact .inr rfl

/-! ## Derivations cover what they write -/

section

variable {l : Layout} {strict : Bool}

theorem Exit.targets_of_onlyTarget? {x : Exit} {t} (h : x.onlyTarget? = some t) : x.targets = [t] := by
  unfold Exit.onlyTarget? at h
  split at h
  · cases h; rfl
  · cases h; rfl
  · split at h
    · rename_i heq
      cases h
      simp [Exit.targets, heq]
    · cases h
  · cases h

variable {taken : BlockId} {e : Expr}

theorem Side.arm_or_rest (side : Side) {w} (h : w ∈ (Exit.cond e taken fall).targets) :
    w = side.arm taken fall ∨ w = side.rest taken fall := by
  cases side with
  | taken => exact Exit.mem_targets_cond.mp h
  | fall => exact (Exit.mem_targets_cond.mp h).symm

theorem Side.arm_mem_targets (side : Side) (e : Expr) (taken fall : BlockId) :
    side.arm taken fall ∈ (Exit.cond e taken fall).targets := by
  cases side <;> simp [Side.arm, Exit.mem_targets_cond]

theorem Side.rest_mem_targets (side : Side) (e : Expr) (taken fall : BlockId) :
    side.rest taken fall ∈ (Exit.cond e taken fall).targets := by
  cases side <;> simp [Side.rest, Exit.mem_targets_cond]

theorem Exit.targets_of_isEnd {x : Exit} (h : x.isEnd = true) : x.targets = [] := by
  cases x <;> simp_all [Exit.isEnd, Exit.targets]

/-- The start of a region is written, or comes later. A block that is being entered is no place to
jump to. -/
def Starts (l : Layout) (scopes : List Enclosing) (b : BlockId) (stop : Option BlockId)
    (entering : Bool) (s' : State) (W : BlockId → Prop) : Prop :=
  l.isBlock b = true → skipPast? l b = none →
    W b ∨ some b = stop ∨ (entering = false ∧ b ∈ targetsOf scopes) ∨
      GivenUp s' b

theorem Starts.deferred {entering W} (h : Starts l scopes b stop entering s' W)
    (hb : l.isBlock b = true) (hskip : skipPast? l b = none) : W b ∨ Deferred scopes stop s' b := by
  rcases h hb hskip with h | h | h | h
  · exact .inl h
  · exact .inr (.inl h)
  · exact .inr (.inr (.inl h.2))
  · exact .inr (.inr (.inr h))

section

variable {scopes : List Enclosing} {b : BlockId} {stop : Option BlockId} {s s' : State}
  {W : BlockId → Prop} {block : Block}

/-- A construct covers its block, and goes on at what follows it. A protected region may leave its
first block to be written after it. -/
def Follows (l : Layout) (scopes : List Enclosing) (b : BlockId) (stop next : Option BlockId) (s s' : State) : Prop :=
  ∃ W, Covers l s s' W (fun w => some w = next ∨ Deferred scopes stop s' w) ∧
    (W b ∨ (some b = next ∧ b ∉ targetsOf scopes) ∨ GivenUp s' b)

theorem follows_plain (hf : l.Fits) {next} (hp : Plain l s b)
    (hb : l.block? b = some block) (hn : ∀ w ∈ block.exit.targets, some w = next) :
    Follows l scopes b stop next s (s.visit b) :=
  ⟨_, (Covers.visit hp.allOpen).imp (fun w _ _ hw => .inr (.inl (hn w (hf.mem_targets hb hw)))) hf,
    .inl rfl⟩

theorem follows_oneSided (hf : l.Fits) {side ends} (hp : Plain l s b)
    (hb : l.block? b = some block) (he : block.exit = .cond e taken fall)
    (hform : branchForm l scopes taken fall stop = .oneSided side armStop ends) (hg : Grows (s.visit b) s')
    (hc : Covers l (s.visit b) s' W (Deferred scopes armStop s'))
    (hW : Starts l scopes (side.arm taken fall) armStop false s' W) :
    Follows l scopes b stop (some (side.rest taken fall)) s s' := by
  have hlater : ∀ w, Deferred scopes armStop s' w →
      some w = some (side.rest taken fall) ∨ Deferred scopes stop s' w := by
    intro w h
    rcases h.stop_or stop with h | h
    · rcases branchForm_oneSided hform with ⟨-, rfl | rfl⟩ | rfl
      · cases h
      · exact .inr (.inl h)
      · exact .inl h
    · exact .inr h
  refine ⟨_, (Covers.visit hp.allOpen).union hc hg (fun w hblock hskip hw => ?_)
    (fun w _ _ h => .inr (.inr (hlater w h))) hf, .inl (.inl rfl)⟩
  rcases side.arm_or_rest (he ▸ hf.mem_targets hb hw) with rfl | rfl
  · rcases hW.deferred hblock hskip with h | h
    · exact .inr (.inl h)
    · exact .inr (.inr (hlater _ h))
  · exact .inr (.inr (.inl rfl))

theorem follows_twoSided (hf : l.Fits) {meets reached1 reached2 s1 W1 W2}
    (hp : Plain l s b) (hb : l.block? b = some block) (he : block.exit = .cond e taken fall)
    (hform : branchForm l scopes taken fall stop = .twoSided armStop meets) (hg1 : Grows (s.visit b) s1)
    (hg2 : Grows s1 s') (hc1 : Covers l (s.visit b) s1 W1 (Deferred scopes armStop s1))
    (hW1 : Starts l scopes fall armStop false s1 W1) (hc2 : Covers l s1 s' W2 (Deferred scopes armStop s'))
    (hW2 : Starts l scopes taken armStop false s' W2) :
    Follows l scopes b stop (if meets || reached1 || reached2 then armStop else none) s s' := by
  have hlater : ∀ w, Deferred scopes armStop s' w →
      some w = (if meets || reached1 || reached2 then armStop else none) ∨
        Deferred scopes stop s' w := by
    intro w h
    rcases h.stop_or stop with h | h
    · rcases branchForm_twoSided hform with ⟨rfl, -⟩ | rfl
      · exact .inl h
      · exact .inr (.inl h)
    · exact .inr h
  have hsides := hc1.union hc2 hg2 (fun w _ _ h => .inr (.inr (hlater w (h.grow hg2))))
    (fun w _ _ h => .inr (.inr (hlater w h))) hf
  refine ⟨_, (Covers.visit hp.allOpen).union hsides (hg1.trans hg2) (fun w hblock hskip hw => ?_)
    (fun w _ _ h => .inr (.inr h)) hf, .inl (.inl rfl)⟩
  rcases Side.fall.arm_or_rest (he ▸ hf.mem_targets hb hw) with rfl | rfl
  · rcases hW1.deferred hblock hskip with h | h
    · exact .inr (.inl (.inl h))
    · exact .inr (.inr (hlater _ (h.grow hg2)))
  · rcases hW2.deferred hblock hskip with h | h
    · exact .inr (.inl (.inr h))
    · exact .inr (.inr (hlater _ h))

variable {follow : Option BlockId} {label : Nat}

variable (hf : l.Fits)

include hf

theorem follows_switch {key default cases} (hp : Plain l s b) (hb : l.block? b = some block)
    (he : block.exit = .switch key default cases) (hg : Grows (s.visit b) s')
    (hc : Covers l (s.visit b) s' W (Deferred (⟨none, follow, label⟩ :: scopes) follow s'))
    (hW : ∀ e ∈ entriesOf default cases follow, l.isBlock e = true → skipPast? l e = none →
      W e ∨ Deferred (⟨none, follow, label⟩ :: scopes) follow s' e) : Follows l scopes b stop follow s s' := by
  have hlater : ∀ w, Deferred (⟨none, follow, label⟩ :: scopes) follow s' w →
      some w = follow ∨ Deferred scopes stop s' w := by
    intro w h
    rcases h.cases_cons stop with h | h | h | h
    · exact .inl h
    · cases h
    · exact .inl h.symm
    · exact .inr h
  refine ⟨_, (Covers.visit hp.allOpen).union hc hg (fun w hblock hskip hw => ?_)
    (fun w _ _ h => .inr (.inr (hlater w h))) hf, .inl (.inl rfl)⟩
  have hw := hf.mem_targets hb hw
  rw [he] at hw
  by_cases hfollow : some w = follow
  · exact .inr (.inr (.inl hfollow))
  · rcases hW w (mem_filter.mpr ⟨hw, by simpa using hfollow⟩) hblock hskip with h | h
    · exact .inr (.inl h)
    · exact .inr (.inr (hlater w h))

theorem follows_guarded {test inside follow} (hl : LoopAt l s b info)
    (hform : l.loopForm info = .guarded test inside follow) (hg : Grows (s.visit b) s')
    (hc : Covers l (s.visit b) s' W (Deferred (⟨some b, some follow, label⟩ :: scopes) none s'))
    (hW : (inside == b) = false → Starts l (⟨some b, some follow, label⟩ :: scopes) inside none false s' W) :
    Follows l scopes b stop (some follow) s s' := by
  obtain ⟨hinfo, hheader, -⟩ := pendingLoop_some hl.pending
  obtain ⟨block, hd, -, -⟩ := Layout.loopForm_guarded hform
  obtain ⟨e, t, f, side, he, rfl, rfl, -⟩ := hd.exit
  have hopen : AllOpen l s.tries b := hl.allOpen fun plan ho hs =>
    (ho info hinfo).1 _ _ _ hform (hheader.trans hs.symm)
  have hlater : ∀ w, Deferred (⟨some b, some (side.rest t f), label⟩ :: scopes) none s' w →
      w = b ∨ some w = some (side.rest t f) ∨ Deferred scopes stop s' w := by
    intro w h
    rcases h.cases_cons stop with h | h | h | h
    · cases h
    · exact .inl (Option.some.inj h).symm
    · exact .inr (.inl h.symm)
    · exact .inr (.inr h)
  refine ⟨_, (Covers.visit hopen).union hc hg (fun w hblock hskip hw => ?_)
    (fun w _ _ h => (hlater w h).imp_right .inr) hf, .inl (.inl rfl)⟩
  rcases side.arm_or_rest (he ▸ hf.mem_targets (hheader ▸ hd.block?) hw) with rfl | rfl
  · by_cases hin : side.arm t f = b
    · exact .inl hin
    · rcases (hW (by simpa using hin)).deferred hblock hskip with h | h
      · exact .inr (.inl h)
      · exact (hlater _ h).imp_right .inr
  · exact .inr (.inr (.inl rfl))

theorem follows_tested {latch test follow} (hl : LoopAt l s b info)
    (hform : l.loopForm info = .tested latch test follow) (hb : l.isBlock b = true) (hskip : skipPast? l b = none)
    (hg : Grows s s') (hc : Covers l s s' W (Deferred (⟨some latch, some follow, label⟩ :: scopes) (some latch) s'))
    (hW : (latch == b) = false → Starts l (⟨some latch, some follow, label⟩ :: scopes) b (some latch) true s' W) :
    Follows l scopes b stop (some follow) s (s'.visit latch) := by
  obtain ⟨hinfo, hheader, -⟩ := pendingLoop_some hl.pending
  obtain ⟨block, -, hd, -⟩ := Layout.loopForm_tested hform
  obtain ⟨e, t, f, side, he, harm, rfl, -⟩ := hd.exit
  have hopen : AllOpen l s'.tries latch := by
    intro plan hp hs ho hturn
    obtain ⟨hlatch, -⟩ := (ho info hinfo).2 _ _ _ hform hs.symm
    have hall : AllOpen l s.tries b := hl.allOpen fun plan ho hs =>
      ((ho info hinfo).2 _ _ _ hform (by rw [hlatch, hheader, hs])).2
    exact hall.mono hg.tries plan hp (by rw [hs, hlatch, hheader]) ho hturn
  have hWb : (W b ∨ b = latch) ∨ GivenUp s' b := by
    by_cases hlatch : latch = b
    · exact .inl (.inr hlatch.symm)
    · rcases hW (by simpa using hlatch) hb hskip with h | h | h | h
      · exact .inl (.inl h)
      · exact .inl (.inr (Option.some.inj h))
      · cases h.1
      · exact .inr h
  refine ⟨_, hc.union (Covers.visit hopen) (.visit _ _) (fun w _ _ h => ?_) (fun w _ _ hw => ?_) hf,
    hWb.imp_right fun h => .inr (h.grow (.visit _ _))⟩
  · rcases h.cases_cons stop with h | h | h | h
    · exact .inr (.inl (Option.some.inj h))
    · exact .inr (.inl (Option.some.inj h).symm)
    · exact .inr (.inr (.inl h.symm))
    · exact .inr (.inr (.inr (h.grow (.visit _ _))))
  · rcases side.arm_or_rest (he ▸ hf.mem_targets hd.block? hw) with rfl | rfl
    · rw [← harm, hheader]
      rcases hWb with (h | h) | h
      · exact .inl h
      · exact .inr (.inl h)
      · exact .inr (.inr (.inr (.inr (.inr (h.grow (.visit _ _))))))
    · exact .inr (.inr (.inl rfl))

theorem follows_endless (hb : l.isBlock b = true) (hskip : skipPast? l b = none)
    (hc : Covers l s s' W (Deferred (⟨some b, follow, label⟩ :: scopes) none s'))
    (hW : Starts l (⟨some b, follow, label⟩ :: scopes) b none true s' W) : Follows l scopes b stop follow s s' := by
  have hWb : W b ∨ GivenUp s' b := by
    rcases hW hb hskip with h | h | h | h
    · exact .inl h
    · cases h
    · cases h.1
    · exact .inr h
  refine ⟨W, hc.imp (fun w _ _ h => ?_) hf, hWb.imp_right .inr⟩
  rcases h.cases_cons stop with h | h | h | h
  · cases h
  · cases h
    exact hWb.imp_right fun h => .inr (.inr (.inr h))
  · exact .inr (.inl h.symm)
  · exact .inr (.inr h)

theorem follows_guard {index} {reached : Bool} {s1}
    (ht : TryAt l s b index plan) (hb : l.isBlock b = true) (hskip : skipPast? l b = none) (hstop : some b ≠ stop)
    (hfollow : l.tryFollow (index :: s.tries) (boundsOf scopes stop) plan = follow)
    (hg : Grows (s.openTry index) s1) (hg' : Grows s1 s') (hc : Covers l s s1 W (Deferred scopes (follow.or stop) s1))
    (hW : Starts l scopes plan.start (follow.or stop) true s1 W) :
    Follows l scopes b stop (follow.or (if reached then stop else none)) s s' := by
  obtain ⟨hplan, hstart, -⟩ := pendingTry_some ht.pending
  have hmem : plan ∈ l.protection.plans := List.mem_of_getElem? hplan
  by_cases hm : l.MovesOn plan
  case neg =>
    refine ⟨_, .stuck ⟨plan, hmem, hstart, hm⟩ ?_, .inl rfl⟩
    exact (ht.allOpen hm).mono (hg.trans hg').tries
  have hlater : ∀ w, Deferred scopes (follow.or stop) s1 w →
      some w = follow.or (if reached then stop else none) ∨ Deferred scopes stop s' w := by
    intro w h
    rcases (h.grow hg').stop_or stop with h | h
    · cases hfo : follow with
      | none => exact .inr (.inl (by simpa [hfo] using h))
      | some f => exact .inl (by simpa [hfo] using h)
    · exact .inr h
  refine ⟨W, (hc.imp (fun w _ _ h => .inr (hlater w h)) hf).grow hg' (ne_nil_of_mem hmem), ?_⟩
  rw [hstart] at hW
  rcases hW hb hskip with h | h | h | h
  · exact .inl h
  · -- the body is left to the follow, which is no place of an enclosing construct
    have hfo : follow = some b := by
      cases hfo : follow with
      | none => exact absurd (by simpa [hfo] using h) hstop
      | some f => exact congrArg some (by simpa [hfo] using h.symm)
    refine .inr (.inl ⟨by simp [hfo], fun hmem => ?_⟩)
    refine hm l.labels (index :: s.tries) (boundsOf scopes stop) ?_ (by rw [hfollow, hfo, hstart])
    rw [hstart]
    exact mem_boundsOf.mpr (.inr hmem)
  · cases h.1
  · exact .inr (.inr (h.grow hg'))

end

mutual

theorem Region.covers (hf : l.Fits) {scopes b stop entering out s out' reached s'}
    (h : Region l strict scopes b stop entering out s out' reached s') :
    ∃ W, Covers l s s' W (Deferred scopes stop s') ∧ Starts l scopes b stop entering s' W := by
  match h with
  | .stop => exact ⟨_, .empty rfl, fun _ _ => .inr (.inl rfl)⟩
  | .jump _ hj =>
      exact ⟨_, .empty rfl, fun _ _ => .inr (.inr (.inl ⟨rfl, mem_targetsOf_of_findJump hj⟩))⟩
  | .goto _ _ hv =>
      exact ⟨_, .empty rfl, fun _ _ => .inr (.inr (.inr ⟨rfl, hv⟩))⟩
  | .skip _ hp hr =>
      obtain ⟨W, hc, -⟩ := hr.covers hf
      exact ⟨W, hc, fun _ hn => by rw [hp] at hn; cases hn⟩
  | .outside _ _ hb => exact ⟨_, .empty rfl, fun h => by rw [hb] at h; cases h⟩
  | .last ha hp hb hc =>
      obtain ⟨W, hc, hW⟩ := hc.covers hf hb hp ha.ne_stop
      refine ⟨W, hc.imp (fun w _ _ h => .inr (h.resolve_left (by simp))) hf, fun _ _ => ?_⟩
      rcases hW with h | h | h
      · exact .inl h
      · cases h.1
      · exact .inr (.inr (.inr h))
  | .next ha hp hb hc hr =>
      obtain ⟨W1, hc1, hW1⟩ := hc.covers hf hb hp ha.ne_stop
      obtain ⟨W2, hc2, hn⟩ := hr.covers hf
      refine ⟨_, hc1.union hc2 hr.grows (fun w hb hskip h => ?_) (fun w _ _ h => .inr (.inr h)) hf,
        fun _ _ => ?_⟩
      · rcases h with h | h
        · cases h
          exact .inr (hn.deferred hb hskip)
        · exact .inr (.inr (h.grow hr.grows))
      · rcases hW1 with h | ⟨h, hb'⟩ | h
        · exact .inl (.inl h)
        · cases h
          rcases hn hb hp with h | h | h | h
          · exact .inl (.inr h)
          · exact .inr (.inl h)
          · exact absurd h.2 hb'
          · exact .inr (.inr (.inr h))
        · exact .inr (.inr (.inr (h.grow hr.grows)))

theorem Construct.covers (hf : l.Fits)
    {scopes b stop out s next out' s'} (hb : l.isBlock b = true) (hskip : skipPast? l b = none)
    (hstop : some b ≠ stop) (h : Construct l strict scopes b stop out s next out' s') :
    Follows l scopes b stop next s s' := by
  match h with
  | .goes hp hblock ht =>
      refine follows_plain hf hp hblock fun w hw => ?_
      rw [Exit.targets_of_onlyTarget? ht] at hw
      exact congrArg some (mem_singleton.mp hw)
  | .ends hp hblock he =>
      refine follows_plain hf hp hblock fun w hw => ?_
      rw [Exit.targets_of_isEnd he] at hw
      cases hw
  | .oneSided hp hblock he _ hform hr _ =>
      obtain ⟨W, hc, hW⟩ := hr.covers hf
      exact follows_oneSided hf hp hblock he hform hr.grows hc hW
  | .twoSided hp hblock he _ hform hr1 hr2 =>
      obtain ⟨W1, hc1, hW1⟩ := hr1.covers hf
      obtain ⟨W2, hc2, hW2⟩ := hr2.covers hf
      exact follows_twoSided hf hp hblock he hform hr1.grows hr2.grows hc1 hW1 hc2 hW2
  | .switch hp hblock he _ ha =>
      obtain ⟨W, hc, hW⟩ := ha.covers hf
      exact follows_switch hf hp hblock he ((Grows.takeLabel _).trans ha.grows)
        (hc.of_visited_eq rfl) hW
  | .guarded hl hform hr =>
      obtain ⟨W, hc, hW⟩ := hr.covers hf
      exact follows_guarded hf hl hform
        (((Grows.openLoop _ _).trans (.takeLabel _)).trans hr.grows) (hc.of_visited_eq rfl) hW
  | .tested hl hform hr _ =>
      obtain ⟨W, hc, hW⟩ := hr.covers hf
      exact follows_tested hf hl hform hb hskip
        (((Grows.openLoop _ _).trans (.takeLabel _)).trans hr.grows) (hc.of_visited_eq rfl) hW
  | .endless _ _ hr =>
      obtain ⟨W, hc, hW⟩ := hr.covers hf
      exact follows_endless hf hb hskip (hc.of_visited_eq rfl) hW
  | .guard ht hfollow hr hc hd =>
      obtain ⟨W, hcov, hW⟩ := hr.covers hf
      exact follows_guard hf ht hb hskip hstop hfollow hr.grows
        ((hc.grows.trans hd.grows).trans (.noteShape _ _)) (hcov.of_visited_eq rfl) hW

theorem Part.covers (hf : l.Fits) {absent scopes b stop entering s body s'}
    (h : Part l strict absent scopes b stop entering s body s') : ∃ W, Covers l s s' W (Deferred scopes stop s') ∧
      (absent = false → Starts l scopes b stop entering s' W) := by
  match h with
  | .absent => exact ⟨_, .empty rfl, fun h => by cases h⟩
  | .present hr =>
      obtain ⟨W, hc, hW⟩ := hr.covers hf
      exact ⟨W, hc, fun _ => hW⟩

theorem Arms.covers (hf : l.Fits) {scopes default cases follow entries s arms s'}
    (h : Arms l strict scopes default cases follow entries s arms s') :
    ∃ W, Covers l s s' W (Deferred scopes follow s') ∧
      ∀ e ∈ entries, l.isBlock e = true → skipPast? l e = none → W e ∨ Deferred scopes follow s' e := by
  match h with
  | .nil => exact ⟨_, .empty rfl, fun _ h => by cases h⟩
  | @Arms.cons _ _ _ _ _ _ entry rest _ _ _ s1 _ _ hr ha =>
      obtain ⟨W1, hc1, hW1⟩ := hr.covers hf
      obtain ⟨W2, hc2, hW2⟩ := ha.covers hf
      -- an arm stops where the next one starts
      have hlater : ∀ w, l.isBlock w = true → skipPast? l w = none →
          Deferred scopes (rest.head?.or follow) s1 w → W2 w ∨ Deferred scopes follow s' w := by
        intro w hb hskip h
        rcases h.stop_or follow with h | h
        · cases hrest : rest.head? with
          | none => exact .inr (.inl (by simpa [hrest] using h))
          | some e =>
              have hwe : w = e := by simpa [hrest] using h
              exact hW2 w (hwe ▸ mem_of_mem_head? hrest) hb hskip
        · exact .inr (h.grow ha.grows)
      refine ⟨_, hc1.union hc2 ha.grows (fun w hb hskip h => .inr (hlater w hb hskip h))
        (fun w _ _ h => .inr (.inr h)) hf, fun e he hb hskip => ?_⟩
      rw [or_assoc]
      rcases mem_cons.mp he with rfl | he
      · rcases hW1.deferred hb hskip with h | h
        · exact .inl h
        · exact .inr (hlater e hb hskip h)
      · exact .inr (hW2 e he hb hskip)

end

end

end Walk

end JvmLift

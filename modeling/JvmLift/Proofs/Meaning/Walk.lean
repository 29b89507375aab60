import JvmLift.Proofs.Meaning.Agreement
import JvmLift.Proofs.Structure.Layout
import JvmLift.Proofs.Walk.Stages

/-!
# A strict walk keeps the meaning

Every rule by which a strict walk writes something matches the blocks it is written for.
-/
namespace JvmLift

open List
open Source (Outcome exec execList execBlock)

universe u

variable {σ : Type u} {I : Interpretation σ} {n : Nat}

/-! ## The end of a loop body -/

variable {r : Outcome σ Unit}

namespace Source

variable {taken : Source.Ending Unit → Bool}

mutual

/-- A `continue` at the end may be left out where it is taken. -/
theorem take_stripContinue (ht : taken (.continued none) = true) : ∀ (ts : List Tree) (x : σ),
      (execList I.actions n (Tree.stripContinue ts) x).take taken = (execList I.actions n ts x).take taken
  | [], _ => rfl
  | [t], x => by rw [Tree.stripContinue, take_stripLast ht t x, execList_singleton]
  | t :: u :: more, x => by
      rw [Tree.stripContinue, execList, execList]
      exact Outcome.take_andThen_congr (take_stripContinue ht (u :: more))

theorem take_stripLast (ht : taken (.continued none) = true) : ∀ (t : Tree) (x : σ),
      (execList I.actions n t.stripLast x).take taken = (exec I.actions n [] t x).take taken
  | .continueTo none, x => by simp [Tree.stripLast, execList, exec, Outcome.take, ht, Outcome.done]
  | .ifElse e t b, x => by
      rw [Tree.stripLast, execList_singleton, I.exec_ifElse, I.exec_ifElse]
      split
      · exact take_stripContinue ht t x
      · exact take_stripBlock ht b x
  | .simple _, x | .declare .., x | .whileLoop .., x | .doWhile .., x | .forLoop .., x
  | .forEach .., x | .switch .., x | .tryCatch .., x | .synchronized .., x | .labeled .., x
  | .breakTo _, x | .continueTo (some _), x | .goto _, x | .label _, x | .comment _, x =>
      congrArg (·.take taken) (execList_singleton _ x)

theorem take_stripBlock (ht : taken (.continued none) = true) : ∀ (b : Option (List Tree)) (x : σ),
      (execBlock I.actions n (Tree.stripBlock b) x).take taken = (execBlock I.actions n b x).take taken
  | none, _ => rfl
  | some ts, x => by
      rw [Tree.stripBlock, execBlock, execBlock]
      exact take_stripContinue ht ts x

end

end Source

theorem Exit.next?_of_onlyTarget {exit : Exit} {t} (h : exit.onlyTarget? = some t) (x : σ) :
    exit.next? I x = some t := by
  cases exit with
  | fall | goto => exact h
  | cond e taken fall =>
      simp only [Exit.onlyTarget?] at h
      split at h
      · cases h
        rename_i hsame
        simp [Exit.next?, hsame]
      · cases h
  | switch | leave | throw | ret => cases h

variable {inside follow : BlockId}

theorem Layout.Decides.next? {l : Layout} {b block test} (h : l.Decides b block test inside follow) (x : σ) :
    block.exit.next? I x = some (if I.holds test x then inside else follow) := by
  obtain ⟨e, t, f, side, he, rfl, rfl, rfl⟩ := h.exit
  rw [he, Exit.next?]
  cases side with
  | taken => rfl
  | fall =>
      simp only [Walk.Side.test, I.holds_negate]
      cases I.holds e x <;> rfl

/-! ## Statements that the walk writes -/

namespace Walk

variable {l : Layout} {scopes : List Enclosing} {used : List Nat} {b : BlockId} {s s' : State}

theorem execList_labelOf (l : Layout) (b : BlockId) (ts : List Tree) (x : σ) :
    execList I.actions n (labelOf l b ++ ts) x = execList I.actions n ts x := by
  unfold labelOf
  split <;> rfl

theorem execList_blockTrees (l : Layout) (b : BlockId) (block : Block) (ts : List Tree) (x : σ) :
    execList I.actions n (blockTrees l b block ++ ts) x = (I.runAll block.stmts x).andThen (execList I.actions n ts) := by
  unfold blockTrees stmtsOf
  rw [append_assoc, execList_labelOf, Source.execList_append, I.execList_map_simple]

theorem exec_ifThen (e : Expr) (body : List Tree) (x : σ) :
    exec I.actions n [] (ifThen e body) x = if I.holds e x then execList I.actions n body x else .done x :=
  rfl

theorem exec_ifBoth (e : Expr) (body1 body2 : List Tree) (x : σ) : exec I.actions n [] (ifBoth e body1 body2) x =
      if I.holds e x then execList I.actions n body1 x else execList I.actions n body2 x := by
  unfold ifBoth
  split
  · rename_i h
    obtain ⟨h1, -⟩ : body1 = [] ∧ body2 ≠ [] := by simpa using h
    rw [exec_ifThen, I.holds_negate, h1]
    cases I.holds e x <;> rfl
  · cases body2 <;> rfl

theorem exec_wrap (s : State) (label : Nat) (t : Tree) (x : σ) : exec I.actions n [] (s.wrap label t) x =
      (exec I.actions n (ownLabels s.usedLabels label) t x).take (breaksTo (ownLabels s.usedLabels label)) := by
  unfold State.wrap ownLabels
  split
  · have hp : breaksTo [labelName label] = (·.breaks (some (labelName label))) := by
      funext ending
      simp [breaksTo]
    rw [hp, Source.exec]
  · rfl

def Jump.ending (j : Jump) : Source.Ending Unit :=
  if j.isBreak then .broke (j.label.map labelName) else .continued (j.label.map labelName)

theorem exec_jump (j : Jump) (x : σ) : exec I.actions n [] j.tree x = ⟨[], x, j.ending⟩ := by
  unfold Jump.tree Jump.ending
  split <;> rfl

theorem findJump_outer {j} (h : findJump b false false scopes = some j) : ∃ e ∈ scopes, j.label = some e.label ∧
      (j.isBreak = false ∧ e.continueTarget = some b ∨ j.isBreak = true ∧ e.follow = some b) := by
  induction scopes with
  | nil => cases h
  | cons e rest ih =>
      rw [findJump] at h
      split at h
      · cases h
        exact ⟨e, mem_cons_self .., rfl, .inl ⟨rfl, ‹_›⟩⟩
      · split at h
        · cases h
          exact ⟨e, mem_cons_self .., rfl, .inr ⟨rfl, ‹_›⟩⟩
        · obtain ⟨e', he', h'⟩ := ih h
          exact ⟨e', mem_cons_of_mem _ he', h'⟩

theorem leads_jump (hs : ∀ e ∈ scopes, e.continueTarget.isSome = true) {j}
    (h : findJump b true true scopes = some j) (next : Option BlockId) :
    Leads scopes (j.label.toList ++ used) next j.ending (some b) := by
  cases scopes with
  | nil => cases h
  | cons e rest =>
      rw [findJump] at h
      split at h
      · cases h
        exact .continued rfl ‹_›
      · split at h
        · cases h
          exact .broke rfl ‹_›
        · have hloop : e.continueTarget.isNone = false := by
            simpa using hs e (mem_cons_self ..)
          rw [hloop] at h
          obtain ⟨e', he', hlabel, hplace⟩ := findJump_outer h
          have hmem := mem_cons_of_mem e he'
          have hused : e'.label ∈ j.label.toList ++ used := by simp [hlabel]
          unfold Jump.ending
          rcases hplace with ⟨hbreak, ht⟩ | ⟨hbreak, ht⟩
          · rw [hbreak, hlabel]
            exact .continuedTo hmem (hlabel ▸ hused) ht
          · rw [hbreak, hlabel]
            exact .brokeTo hmem (hlabel ▸ hused) ht

/-! ## Constructs -/

/-- A layout without protected regions whose blocks decide between two others at most. -/
structure Sequential (l : Layout) : Prop where
  closed : Block.Closed l.blocks
  exits : ∀ b block, l.block? b = some block → block.Sequential
  no_plans : l.protection.plans = []
  no_skips : l.protection.skipped = []

/-- The statements match what blocks do from `b` on. -/
def Renders (I : Interpretation σ) (l : Layout) (least : Nat) (leads : Source.Ending Unit → Option BlockId → Prop)
    (b : BlockId) (ts : List Tree) : Prop :=
  l.isBlock b = true → ∀ n x, Matches I l.blocks n least leads b x (execList I.actions n ts x)

variable {least : Nat}

theorem Renders.mono {least' leads leads' ts} (h : Renders I l least leads b ts) (hl : least' ≤ least)
    (hi : ∀ ending pos, leads ending pos → leads' ending pos) : Renders I l least' leads' b ts :=
  fun hb n x => (h hb n x).mono (Nat.le_refl n) hl hi

theorem Renders.append (hl : Sequential l) {next next' ts us}
    (h : Renders I l least (Leads scopes s.usedLabels (some next)) b ts)
    (h' : Renders I l 0 (Leads scopes s'.usedLabels next') next us) (hg : Grows s s') :
    Renders I l least (Leads scopes s'.usedLabels next') b (ts ++ us) := by
  intro hb n x
  rw [Source.execList_append]
  refine (h hb n x).andThen_same hl.closed hb Leads.not_normal_none (fun t y ht hblock => ?_)
    fun _ _ hn hlead => (hlead.of_ne hn).mono hg.usedLabels fun _ => id
  obtain rfl : t = next := by simpa using ht.of_normal
  exact h' hblock n y

variable {block : Block}

theorem renders_goes (hl : Sequential l) {t} (hb : l.block? b = some block)
    (ht : block.exit.onlyTarget? = some t) : Renders I l 1 (Leads scopes used (some t)) b (blockTrees l b block) := by
  intro _ n x
  rw [← append_nil (blockTrees l b block), execList_blockTrees]
  refine Matches.step hl.closed hb (hl.exits b block hb) .returned fun u y hu _ => ?_
  obtain rfl : t = u := by simpa [Exit.next?_of_onlyTarget ht] using hu
  exact .stay (.normal rfl)

theorem renders_ends (hl : Sequential l) (hb : l.block? b = some block) (he : block.exit.isEnd = true) :
    Renders I l 1 (Leads scopes used none) b (blockTrees l b block) := by
  intro _ n x
  rw [← append_nil (blockTrees l b block), execList_blockTrees]
  refine Matches.step hl.closed hb (hl.exits b block hb) .returned fun u y hu _ => ?_
  cases hexit : block.exit <;> rw [hexit] at he hu <;> cases he <;> cases hu

variable {taken fall : BlockId} {e : Expr}

theorem renders_branch (hl : Sequential l) (hb : l.block? b = some block) (he : block.exit = .cond e taken fall)
    {leads} (hh : leads (.returned none) none) {t} (htaken : ∀ n y, l.isBlock taken = true → I.holds e y = true →
      Matches I l.blocks n 0 leads taken y (exec I.actions n [] t y))
    (hfall : ∀ n y, l.isBlock fall = true → I.holds e y = false →
      Matches I l.blocks n 0 leads fall y (exec I.actions n [] t y)) :
    Renders I l 1 leads b (blockTrees l b block ++ [t]) := by
  intro _ n x
  rw [execList_blockTrees]
  refine Matches.step hl.closed hb (hl.exits b block hb) hh fun u y hu hblock => ?_
  rw [Source.execList_singleton]
  rw [he] at hu
  cases hy : I.holds e y with
  | true =>
      obtain rfl : taken = u := by simpa [Exit.next?, hy] using hu
      exact htaken n y hblock hy
  | false =>
      obtain rfl : fall = u := by simpa [Exit.next?, hy] using hu
      exact hfall n y hblock hy

variable {body : List Tree}

theorem renders_oneSided (hl : Sequential l) {side : Side} {armStop ends reached}
    (hb : l.block? b = some block) (he : block.exit = .cond e taken fall)
    (hf : ends = true ∨ armStop = some (side.rest taken fall)) (hs : ends = true → reached = false)
    (hr : Renders I l 0 (Leads scopes used (if reached then armStop else none)) (side.arm taken fall) body) :
    Renders I l 1 (Leads scopes used (some (side.rest taken fall))) b
      (blockTrees l b block ++ [ifThen (side.test e) body]) := by
  have harm : Renders I l 0 (Leads scopes used (some (side.rest taken fall)))
      (side.arm taken fall) body := by
    refine hr.mono (Nat.le_refl 0) fun _ _ h => h.mono (List.Subset.refl _) fun u hu => ?_
    rcases hf with hends | hstop
    · simp [hs hends] at hu
    · rw [hstop] at hu
      split at hu
      · exact hu
      · cases hu
  refine renders_branch hl hb he .returned (fun n y hblock hy => ?_) (fun n y hblock hy => ?_)
  · rw [exec_ifThen]
    cases side with
    | taken =>
        rw [if_pos (by exact hy)]
        exact harm hblock n y
    | fall =>
        rw [if_neg (by simp [Side.test, I.holds_negate, hy])]
        exact .stay (.normal rfl)
  · rw [exec_ifThen]
    cases side with
    | taken =>
        rw [if_neg (by simp [Side.test, hy])]
        exact .stay (.normal rfl)
    | fall =>
        rw [if_pos (by simp [Side.test, I.holds_negate, hy])]
        exact harm hblock n y

theorem renders_twoSided (hl : Sequential l) {next body1 body2}
    (hb : l.block? b = some block) (he : block.exit = .cond e taken fall)
    (hr1 : Renders I l 0 (Leads scopes used next) fall body1)
    (hr2 : Renders I l 0 (Leads scopes used next) taken body2) :
    Renders I l 1 (Leads scopes used next) b (blockTrees l b block ++ [ifBoth e.negate body1 body2]) := by
  refine renders_branch hl hb he .returned (fun n y hblock hy => ?_) (fun n y hblock hy => ?_)
  · rw [exec_ifBoth, if_neg (by simp [I.holds_negate, hy])]
    exact hr2 hblock n y
  · rw [exec_ifBoth, if_pos (by simp [I.holds_negate, hy])]
    exact hr1 hblock n y

/-! ## Loops -/

section

variable (head : Enclosing) {body : List Tree} {n : Nat}

theorem matches_body (hlab : ∀ e ∈ scopes, e.label < head.label) {start x}
    (h : Matches I l.blocks n least (Leads (head :: scopes) used head.continueTarget) start x r) :
    Matches I l.blocks n least (InRound scopes used head head.continueTarget) start x
      (r.take (·.resumes (ownLabels used head.label))) := by
  refine h.take rfl (fun ending pos ht hlead => ?_) fun _ _ ht hlead => ⟨hlead, ht⟩
  refine ⟨?_, rfl⟩
  cases hlead with
  | normal | broke | brokeTo | returned => cases ht
  | continued he hf =>
      cases he
      exact .normal hf
  | continuedTo he hu hf =>
      obtain ⟨-, hname⟩ := mem_ownLabels.mp (by simpa [Source.Ending.resumes] using ht)
      rcases mem_cons.mp he with rfl | he
      · exact .normal hf
      · exact absurd (labelName_injective hname) (Nat.ne_of_lt (hlab _ he))

variable {follow : BlockId} {test : Expr}

theorem matches_guarded (hl : Sequential l) (hlab : ∀ e ∈ scopes, e.label < head.label) (hb : l.isBlock b = true)
    (hd : l.Decides b block test inside follow) (hstmts : block.stmts = []) (hcont : head.continueTarget = some b)
    (hfollow : head.follow = some follow) (hbody : ∀ x, l.isBlock inside = true →
      Matches I l.blocks n 0 (Leads (head :: scopes) used (some b)) inside x (execList I.actions n body x)) (x : σ) :
    Matches I l.blocks n 1 (Leads scopes used (some follow)) b x
      ((exec I.actions n (ownLabels used head.label) (.whileLoop test (Tree.stripContinue body)) x).take
        (breaksTo (ownLabels used head.label))) := by
  rw [← hfollow]
  refine matches_loop hl.closed hb hlab (fun y => ?_) x
  suffices hstep : Matches I l.blocks n 1 (InRound scopes used head (some b)) b y
      ((I.runAll block.stmts y).andThen fun y => (I.actions.test test y).andThen fun z =>
        (execList I.actions n (Tree.stripContinue body) z).take
          (·.resumes (ownLabels used head.label))) by
    rw [hstmts] at hstep
    exact hstep
  refine Matches.step hl.closed hd.block? (hl.exits b block hd.block?) ⟨.returned, rfl⟩
    fun t z ht hblock => ?_
  rw [hd.next?] at ht
  rw [I.test_actions]
  cases hz : I.holds test z with
  | true =>
      obtain rfl : inside = t := by simpa [hz] using ht
      rw [Outcome.andThen_of_normal (by simp), Source.take_stripContinue rfl]
      exact hcont ▸ matches_body head hlab (hcont.symm ▸ hbody z hblock)
  | false =>
      obtain rfl : follow = t := by simpa [hz] using ht
      exact .stay ⟨.broke rfl hfollow, rfl⟩

theorem matches_endless (hl : Sequential l) (hlab : ∀ e ∈ scopes, e.label < head.label)
    (hb : l.isBlock b = true) (hcont : head.continueTarget = some b) (hbody : ∀ x, Matches I l.blocks n 1
      (Leads (head :: scopes) used (some b)) b x (execList I.actions n body x)) (x : σ) :
    Matches I l.blocks n 1 (Leads scopes used head.follow) b x ((exec I.actions n (ownLabels used head.label)
        (.whileLoop (.boolLit true) (Tree.stripContinue body)) x).take (breaksTo (ownLabels used head.label))) := by
  refine matches_loop hl.closed hb hlab (fun y => ?_) x
  rw [Outcome.andThen_of_normal (by simp [Interpretation.test_actions, I.holds_boolLit]),
    Source.take_stripContinue rfl]
  exact hcont ▸ matches_body head hlab (hcont.symm ▸ hbody y)

/-- A `continue` may pass over the statements of a latch only where there are none. -/
theorem round_tested {stmts own test} (h : stmts = [] ∨ r.ending.resumes own = false) :
    ((r.andThen (I.runAll stmts)).take (·.resumes own)).andThen test =
      (r.take (·.resumes own)).andThen fun y => (I.runAll stmts y).andThen test := by
  have hrun : ∀ y, (I.runAll stmts y).take (·.resumes own) = I.runAll stmts y := by
    intro y
    unfold Outcome.take
    rcases Interpretation.ending_runAll (I := I) stmts y with hn | hn <;> simp [hn, Source.Ending.resumes]
  by_cases hn : r.ending = .normal
  · have hr : r.take (·.resumes own) = r := by simp [Outcome.take, hn, Source.Ending.resumes]
    rw [hr, Outcome.andThen_of_normal hn, Outcome.andThen_of_normal hn, Outcome.take_behind, hrun,
      Outcome.behind_andThen]
  · rw [Outcome.andThen_of_ne hn]
    rcases h with rfl | h
    · rfl
    · have hr : r.take (·.resumes own) = r := by simp [Outcome.take, h]
      rw [hr, Outcome.andThen_of_ne hn, Outcome.andThen_of_ne hn]

variable {latch : BlockId}

theorem matches_latch (hl : Sequential l)
    (hd : l.Decides latch block test b follow) (hfollow : head.follow = some follow) (x : σ) :
    Matches I l.blocks n 1 (InRound scopes used head (some b)) latch x
      ((I.runAll block.stmts x).andThen (I.actions.test test)) := by
  refine Matches.step hl.closed hd.block? (hl.exits latch block hd.block?) ⟨.returned, rfl⟩
    fun t y ht _ => ?_
  rw [hd.next?] at ht
  rw [I.test_actions]
  cases hy : I.holds test y with
  | true =>
      obtain rfl : b = t := by simpa [hy] using ht
      exact .stay ⟨.normal rfl, rfl⟩
  | false =>
      obtain rfl : follow = t := by simpa [hy] using ht
      exact .stay ⟨.broke rfl hfollow, rfl⟩

theorem matches_tested (hl : Sequential l) (hlab : ∀ e ∈ scopes, e.label < head.label) (hb : l.isBlock b = true)
    (hd : l.Decides latch block test b follow) (hcont : head.continueTarget = some latch)
    (hfollow : head.follow = some follow)
    (hs : latchTrees l latch = [] ∨ Tree.continuesIn (some (labelName head.label)) false body = false)
    (hbody : (body = [] ∧ latch = b) ∨ ∀ x, Matches I l.blocks n 1
      (Leads (head :: scopes) used (some latch)) b x (execList I.actions n body x)) (x : σ) :
    Matches I l.blocks n 1 (Leads scopes used (some follow)) b x ((exec I.actions n (ownLabels used head.label)
        (.doWhile (Tree.stripContinue (body ++ latchTrees l latch)) test) x).take
          (breaksTo (ownLabels used head.label))) := by
  have hlatch : latchTrees l latch = block.stmts.map .simple := by
    simp [latchTrees, hd.block?, stmtsOf]
  rw [hlatch] at hs ⊢
  rw [← hfollow]
  refine matches_loop hl.closed hb hlab (fun y => ?_) x
  have hquiet : block.stmts = [] ∨
      (execList I.actions n body y).ending.resumes (ownLabels used head.label) = false := by
    refine hs.imp (fun h => by simpa using h) fun h => ?_
    exact (Source.passes_execList h y).not_resumes fun name hname => by rw [(mem_ownLabels.mp hname).2]
  rw [Source.take_stripContinue rfl, Source.execList_append,
    show execList I.actions n (block.stmts.map .simple) = I.runAll block.stmts from
      funext (I.execList_map_simple _), round_tested hquiet]
  rcases hbody with ⟨rfl, rfl⟩ | hbody
  · exact matches_latch head hl hd hfollow y
  · have hfirst := matches_body head hlab (hcont.symm ▸ hbody y)
    refine hfirst.andThen_same hl.closed hb (fun h => Leads.not_normal_none h.1) (fun t z ht _ => ?_)
      fun ending pos hn h => ⟨h.1.of_ne hn, h.2⟩
    obtain rfl : latch = t := by simpa [hcont, eq_comm] using ht.1.of_normal
    exact (matches_latch head hl hd hfollow z).mono (Nat.le_refl n) (Nat.zero_le 1) fun _ _ h => h

end

/-! ## The walk -/

def InLoops (scopes : List Enclosing) (s : State) : Prop :=
  ∀ e ∈ scopes, e.continueTarget.isSome = true ∧ e.label ≤ s.labelCount

theorem InLoops.mono (h : InLoops scopes s) (hg : Grows s s') : InLoops scopes s' :=
  fun e he => ⟨(h e he).1, Nat.le_trans (h e he).2 hg.labelCount⟩

theorem InLoops.cons (h : InLoops scopes s) (place : BlockId) (follow : Option BlockId) :
    InLoops (⟨some place, follow, s.labelCount + 1⟩ :: scopes) s.takeLabel := by
  intro e he
  rcases mem_cons.mp he with rfl | he
  · exact ⟨rfl, Nat.le_refl _⟩
  · exact ⟨(h e he).1, Nat.le_succ_of_le (h e he).2⟩

theorem InLoops.lt (h : InLoops scopes s) : ∀ e ∈ scopes, e.label < s.labelCount + 1 :=
  fun e he => Nat.lt_succ_of_le (h e he).2

theorem Sequential.pendingTry (hl : Sequential l) (done : List Nat) (b : BlockId) : l.pendingTry done b = none := by
  simp [Layout.pendingTry, hl.no_plans]

theorem Sequential.skipPast? (hl : Sequential l) (b : BlockId) : skipPast? l b = none := by
  simp [Walk.skipPast?, Protection.skipEnd?, hl.no_skips]

def PartRenders (I : Interpretation σ) (l : Layout) (absent : Bool) (scopes : List Enclosing)
    (b : BlockId) (stop : Option BlockId) (entering : Bool) (body : List Tree) (s' : State) : Prop :=
  (absent = true ∧ body = []) ∨ (absent = false ∧ ∃ reached : Bool,
    Renders I l (if entering = true ∧ some b ≠ stop then 1 else 0)
      (Leads scopes s'.usedLabels (if reached then stop else none)) b body)

theorem renders_guarded (hl : Sequential l) (hs : InLoops scopes s) {info} (hat : LoopAt l s b info)
    (hf : l.loopForm info = .guarded test inside follow)
    (hr : PartRenders I l (inside == b) (⟨some b, some follow, s.labelCount + 1⟩ :: scopes) inside none false body s') :
    Renders I l 1 (Leads scopes s'.usedLabels (some follow)) b
      (labelOf l b ++ [s'.wrap (s.labelCount + 1) (.whileLoop test (Tree.stripContinue body))]) := by
  obtain ⟨-, hheader, -⟩ := pendingLoop_some hat.pending
  obtain ⟨block, hd, hstmts, -, -⟩ := Layout.loopForm_guarded hf
  rw [hheader] at hd
  intro hb n x
  rw [execList_labelOf, Source.execList_singleton, exec_wrap]
  refine matches_guarded ⟨some b, some follow, s.labelCount + 1⟩ hl hs.lt hb hd hstmts rfl rfl
    (fun y hblock => ?_) x
  rcases hr with ⟨hself, rfl⟩ | ⟨-, reached, hr⟩
  · obtain rfl : inside = b := by simpa using hself
    exact .stay (.normal rfl)
  · exact (hr hblock n y).mono (Nat.le_refl n) (Nat.zero_le _)
      fun _ _ h => h.mono (List.Subset.refl _) fun t ht => by simp at ht

theorem renders_tested (hl : Sequential l) (hs : InLoops scopes s) {info} (hat : LoopAt l s b info)
    (hf : l.loopForm info = .tested latch test follow)
    (hstrict : latchTrees l latch = [] ∨ Tree.continuesIn (some (labelName (s.labelCount + 1))) false body = false)
    (hr : PartRenders I l (latch == b) (⟨some latch, some follow, s.labelCount + 1⟩ :: scopes) b (some latch) true body
      s') : Renders I l 1 (Leads scopes s'.usedLabels (some follow)) b [(s'.visit latch).wrap (s.labelCount + 1)
        (.doWhile (Tree.stripContinue (body ++ latchTrees l latch)) test)] := by
  obtain ⟨-, hheader, -⟩ := pendingLoop_some hat.pending
  obtain ⟨block, -, hd, -⟩ := Layout.loopForm_tested hf
  rw [hheader] at hd
  intro hb n x
  rw [Source.execList_singleton, exec_wrap]
  refine matches_tested ⟨some latch, some follow, s.labelCount + 1⟩ hl hs.lt hb hd rfl rfl
    hstrict ?_ x
  rcases hr with ⟨hself, rfl⟩ | ⟨hself, reached, hr⟩
  · exact .inl ⟨rfl, by simpa using hself⟩
  · have hne : b ≠ latch := fun h => by simp [h] at hself
    refine .inr fun y => (hr hb n y).mono (Nat.le_refl n) (by simp [hne])
      fun _ _ h => h.mono (List.Subset.refl _) fun t ht => ?_
    exact (Option.ite_none_right_eq_some.mp ht).2

theorem renders_endless (hl : Sequential l) (hs : InLoops scopes s) {follow}
    (hr : Renders I l 1 (Leads (⟨some b, follow, s.labelCount + 1⟩ :: scopes) s'.usedLabels none) b body) :
    Renders I l 1 (Leads scopes s'.usedLabels follow) b
      [s'.wrap (s.labelCount + 1) (.whileLoop (.boolLit true) (Tree.stripContinue body))] := by
  intro hb n x
  rw [Source.execList_singleton, exec_wrap]
  refine matches_endless ⟨some b, follow, s.labelCount + 1⟩ hl hs.lt hb rfl (fun y => ?_) x
  exact (hr hb n y).mono (Nat.le_refl n) (Nat.le_refl 1) fun _ _ h => h.mono (List.Subset.refl _) fun t ht => by cases ht

mutual

theorem Region.renders (hl : Sequential l) {scopes b stop entering out s out' reached s'}
    (h : Region l true scopes b stop entering out s out' reached s') (ha : s'.approximate = false)
    (hs : InLoops scopes s) : ∃ new, out' = out ++ new ∧ Renders I l (if entering = true ∧ some b ≠ stop then 1 else 0)
      (Leads scopes s'.usedLabels (if reached then stop else none)) b new := by
  match h with
  | .stop =>
      refine ⟨[], (append_nil _).symm, fun _ n x => ?_⟩
      rw [if_neg (by simp)]
      exact .stay (.normal rfl)
  | .jump hb hj =>
      refine ⟨[_], rfl, fun _ n x => ?_⟩
      rw [if_neg (by simp), Source.execList_singleton, exec_jump]
      exact .stay (leads_jump (fun e he => (hs e he).1) hj _)
  | .goto _ _ _ => cases ha
  | .skip _ hp _ => rw [hl.skipPast?] at hp; cases hp
  | .outside _ _ hb => exact ⟨[], (append_nil _).symm, fun hblock => by simp [hb] at hblock⟩
  | .last _ _ _ hc =>
      obtain ⟨new, hout, hnew⟩ := hc.renders hl ha hs
      exact ⟨new, hout, hnew.mono (by split <;> decide) fun _ _ h => h⟩
  | .next _ _ hb hc hr =>
      obtain ⟨new1, hout1, hnew1⟩ := hc.renders hl (hr.grows.approximate ha) hs
      obtain ⟨new2, hout2, hnew2⟩ := hr.renders hl ha (hs.mono hc.grows)
      refine ⟨new1 ++ new2, by rw [hout2, hout1, append_assoc], ?_⟩
      exact (hnew1.append hl (hnew2.mono (Nat.zero_le _) fun _ _ h => h) hr.grows).mono
        (by split <;> decide) fun _ _ h => h

theorem Construct.renders (hl : Sequential l) {scopes b stop out s next out' s'}
    (h : Construct l true scopes b stop out s next out' s') (ha : s'.approximate = false) (hs : InLoops scopes s) :
    ∃ new, out' = out ++ new ∧ Renders I l 1 (Leads scopes s'.usedLabels next) b new := by
  match h with
  | .goes _ hb ht => exact ⟨_, rfl, renders_goes hl hb ht⟩
  | .ends _ hb he => exact ⟨_, rfl, renders_ends hl hb he⟩
  | .oneSided _ hb he _ hf hr hstrict =>
      obtain ⟨new, hout, hnew⟩ := hr.renders hl ha (hs.mono (.visit _ _))
      rw [nil_append] at hout
      refine ⟨_, append_assoc .., ?_⟩
      exact renders_oneSided hl hb he ((branchForm_oneSided hf).imp_left And.left) (hstrict rfl)
        (hout ▸ hnew.mono (Nat.zero_le _) fun _ _ h => h)
  | .twoSided _ hb he _ hf hr1 hr2 =>
      obtain ⟨new1, hout1, hnew1⟩ := hr1.renders hl (hr2.grows.approximate ha) (hs.mono (.visit _ _))
      obtain ⟨new2, hout2, hnew2⟩ := hr2.renders hl ha (hs.mono ((Grows.visit _ _).trans hr1.grows))
      rw [nil_append] at hout1 hout2
      refine ⟨_, append_assoc .., ?_⟩
      refine renders_twoSided hl hb he ?_ ?_
      · refine hout1 ▸ hnew1.mono (Nat.zero_le _) fun _ _ h => h.mono hr2.grows.usedLabels fun t ht => ?_
        rw [Option.ite_none_right_eq_some] at ht ⊢
        exact ⟨by simp [ht.1], ht.2⟩
      · refine hout2 ▸ hnew2.mono (Nat.zero_le _) fun _ _ h => h.mono (List.Subset.refl _) fun t ht => ?_
        rw [Option.ite_none_right_eq_some] at ht ⊢
        exact ⟨by simp [ht.1], ht.2⟩
  | .switch _ hb he _ _ => exact absurd (hl.exits _ _ hb) (by simp [Block.Sequential, he])
  | .guarded hat hf hr =>
      refine ⟨_, append_assoc .., renders_guarded hl hs hat hf ?_⟩
      exact hr.renders hl ha ((hs.cons _ _).mono ((Grows.openLoop _ _).trans (.visit _ _)))
  | .tested hat hf hr hstrict =>
      refine ⟨_, rfl, renders_tested hl hs hat hf (hstrict rfl) ?_⟩
      exact hr.renders hl ha ((hs.cons _ _).mono (Grows.openLoop _ _))
  | .endless hat hf hr =>
      obtain ⟨new, hout, hnew⟩ := hr.renders hl ha ((hs.cons _ _).mono (Grows.openLoop _ _))
      rw [nil_append] at hout
      exact ⟨_, rfl, renders_endless hl hs (hout ▸ hnew.mono (by simp) fun _ _ h => by simpa using h)⟩
  | .guard ht _ _ _ _ =>
      have := ht.pending
      rw [hl.pendingTry] at this
      cases this

theorem Part.renders (hl : Sequential l) {absent scopes b stop entering s body s'}
    (h : Part l true absent scopes b stop entering s body s') (ha : s'.approximate = false)
    (hs : InLoops scopes s) : PartRenders I l absent scopes b stop entering body s' := by
  match h with
  | .absent => exact .inl ⟨rfl, rfl⟩
  | .present hr =>
      obtain ⟨new, hout, hnew⟩ := hr.renders hl ha hs
      rw [nil_append] at hout
      exact .inr ⟨rfl, _, hout ▸ hnew⟩

end

/-- The walk has a strict derivation: it writes no side of a branch as ending that comes to its stop,
and no `continue` that passes over the statements of a latch. -/
def Faithful (l : Layout) (entry : BlockId) : Prop :=
  ∃ reached, Region l true [] entry none false [] .initial (run l entry).1 reached (run l entry).2

theorem Faithful.matches (hl : Sequential l) {entry} (hentry : l.isBlock entry = true)
    (h : Faithful l entry) (ha : (run l entry).2.approximate = false) (n : Nat) (x : σ) :
    Matches I l.blocks n 0 (fun ending pos => ending = .returned none ∧ pos = none) entry x
      (execList I.actions n (run l entry).1 x) := by
  obtain ⟨reached, hr⟩ := h
  obtain ⟨new, hout, hnew⟩ := hr.renders hl ha (fun e he => by cases he)
  rw [hout]
  refine (hnew hentry n x).mono (Nat.le_refl n) (Nat.zero_le _) fun ending pos hlead => ?_
  cases hlead with
  | normal h => simp at h
  | broke he _ | continued he _ | brokeTo he _ _ | continuedTo he _ _ => cases he
  | returned => exact ⟨rfl, rfl⟩

end Walk

end JvmLift

import JvmLift.Proofs.Meaning.Fold
import JvmLift.Proofs.Meaning.Values
import JvmLift.Proofs.Meaning.Walk
import JvmLift.Proofs.Structure.Method
import JvmLift.Proofs.Walk.Unique

/-!
# Structuring keeps what is executed

A structured body executes the statements that its blocks execute, in the same order, if the walk is faithful and
folding leaves the entry.
-/
namespace JvmLift

open Source (execList)

universe u

/-- Structured statements execute the same finite or infinite sequence of simple statements as the
blocks from the entry on, and end the method in the same states. They never fall off the end. -/
def SameRuns (ts : List Tree) (blocks : List Block) (entry : BlockId) : Prop :=
  ∀ {σ : Type u} (I : Interpretation σ) (x : σ),
    (∀ n, (execList I.actions n ts x).ending = .returned none ∨ (execList I.actions n ts x).ending = .exhausted) ∧
    (∀ i s, Tree.Executes I ts x i s ↔ Block.Executes I blocks entry x i s) ∧
    ∀ y, Tree.Halts I ts x y ↔ Block.Halts I blocks entry x y

/-! ## Outcomes under all bounds -/

section

variable {σ : Type u} {I : Interpretation σ} {blocks : List Block} {b : BlockId} {x y : σ}

theorem Block.follow_eq_of_none {k k'} (h : (follow I blocks k b x).position = none)
    (h' : (follow I blocks k' b x).position = none) : follow I blocks k b x = follow I blocks k' b x := by
  rcases Nat.le_total k k' with hle | hle
  · obtain ⟨d, rfl⟩ := Nat.exists_eq_add_of_le hle
    exact (follow_of_none h).symm
  · obtain ⟨d, rfl⟩ := Nat.exists_eq_add_of_le hle
    exact follow_of_none h'

theorem Block.getElem?_of_none {k i s} (h : (follow I blocks k b x).position = none)
    (hs : Executes I blocks b x i s) : (follow I blocks k b x).trace[i]? = some s := by
  obtain ⟨k', hk'⟩ := hs
  rw [← follow_of_none h]
  exact getElem?_follow (Nat.le_add_left k' k) hk'

theorem Matches.exists_follow {n r}
    (h : Matches I blocks n 0 (fun ending pos => ending = .returned none ∧ pos = none) b x r) :
    ∃ k, r.trace = (Block.follow I blocks k b x).trace ∧ r.state = (Block.follow I blocks k b x).state ∧
      (r.ending = .returned none ∧ (Block.follow I blocks k b x).position = none ∨
        r.ending = .exhausted ∧ n ≤ k ∧ (Block.follow I blocks k b x).position ≠ none) := by
  cases h with
  | @ended k _ _ _ _ _ hf hlead =>
      obtain ⟨rfl, rfl⟩ := hlead
      exact ⟨k, by rw [hf], by rw [hf], .inl ⟨rfl, by rw [hf]⟩⟩
  | @exhausted k _ _ t hk hf =>
      exact ⟨k, by rw [hf], by rw [hf], .inr ⟨rfl, hk, by rw [hf]; simp⟩⟩

variable {ts : List Tree}
  (h : ∀ n, Matches I blocks n 0 (fun ending pos => ending = .returned none ∧ pos = none) b x
    (execList I.actions n ts x))

include h

theorem Matches.executes_iff {i s} : Tree.Executes I ts x i s ↔ Block.Executes I blocks b x i s := by
  constructor
  · rintro ⟨n, hn⟩
    obtain ⟨k, htrace, -⟩ := (h n).exists_follow
    exact ⟨k, htrace ▸ hn⟩
  · rintro ⟨n, hn⟩
    obtain ⟨k, htrace, -, ⟨-, hnone⟩ | ⟨-, hle, -⟩⟩ := (h n).exists_follow
    · exact ⟨n, htrace ▸ Block.getElem?_of_none hnone ⟨n, hn⟩⟩
    · exact ⟨n, htrace ▸ Block.getElem?_follow hle hn⟩

theorem Matches.halts_iff : Tree.Halts I ts x y ↔ Block.Halts I blocks b x y := by
  constructor
  · rintro ⟨n, hending, rfl⟩
    obtain ⟨k, -, hstate, ⟨-, hnone⟩ | ⟨hex, -⟩⟩ := (h n).exists_follow
    · exact ⟨k, hnone, hstate.symm⟩
    · cases hending.symm.trans hex
  · rintro ⟨n, hnone, rfl⟩
    obtain ⟨k, -, hstate, ⟨hending, hnone'⟩ | ⟨-, hle, hsome⟩⟩ := (h n).exists_follow
    · exact ⟨n, hending, by rw [hstate, Block.follow_eq_of_none hnone' hnone]⟩
    · obtain ⟨d, rfl⟩ := Nat.exists_eq_add_of_le hle
      rw [Block.follow_of_none hnone] at hsome
      exact absurd hnone hsome

end

/-! ## The method -/

section

variable {cf : ControlFlow} {blocks : List Block} {p : Protection} {fold : Bool}

namespace Structure

theorem isMap_folded (hm : Block.IsMap blocks cf.entry) (hentry : cf.entry ∈ (folded cf blocks p fold).map (·.id)) :
    Block.IsMap (folded cf blocks p fold) cf.entry := by
  cases fold with
  | true => exact Fold.isMap_run hm _ hentry
  | false => exact hm

theorem sequential_walked (hm : Block.IsMap blocks cf.entry) (hs : ∀ b ∈ blocks, b.Sequential)
    (hplans : p.plans = []) (hskips : p.skipped = []) (hentry : cf.entry ∈ (folded cf blocks p fold).map (·.id)) :
    Walk.Sequential (walked cf blocks p fold) where
  closed b block hb t ht := by
    have hm' := isMap_folded hm hentry
    obtain ⟨hmem, -⟩ := (Block.find?_eq_some hm'.nodup).mp hb
    exact Layout.isBlock_iff.mpr (hm'.closed block hmem t ht)
  exits b block hb := by
    obtain ⟨hmem, -⟩ := (Block.find?_eq_some (isMap_folded hm hentry).nodup).mp hb
    have hseq : ∀ c ∈ folded cf blocks p fold, c.Sequential := by
      cases fold with
      | true => exact Fold.sequential_run hs _
      | false => exact hs
    exact hseq block hmem
  no_plans := hplans
  no_skips := hskips

theorem runsAs_folded {σ} (I : Interpretation σ) (hm : Block.IsMap blocks cf.entry)
    (hentry : cf.entry ∈ (folded cf blocks p fold).map (·.id)) :
    Block.RunsAs I (folded cf blocks p fold) blocks cf.entry := by
  cases fold with
  | true => exact Fold.runsAs_run hm.nodup _ hentry
  | false => exact .refl _ _

end Structure

theorem sameRuns_structureMethod (hm : Block.IsMap blocks cf.entry) (hs : ∀ b ∈ blocks, b.Sequential)
    (hplans : p.plans = []) (hskips : p.skipped = []) (ha : (structureMethod cf blocks p fold).approximate = false)
    (hentry : cf.entry ∈ (Structure.folded cf blocks p fold).map (·.id))
    (hf : Walk.Faithful (Structure.walked cf blocks p fold) cf.entry) :
    SameRuns.{u} (structureMethod cf blocks p fold).stmts blocks cf.entry := by
  intro σ I x
  have hl := Structure.sequential_walked hm hs hplans hskips hentry
  have hruns := Structure.runsAs_folded I hm hentry
  rw [Structure.structureMethod_eq] at ha ⊢
  have hblock : (Structure.walked cf blocks p fold).isBlock cf.entry = true :=
    Layout.isBlock_iff.mpr (Structure.isMap_folded hm hentry).entry
  have hmatch := hf.matches (I := I) hl hblock ha
  refine ⟨fun n => ?_, fun i s => ?_, fun y => ?_⟩
  · obtain ⟨_, -, -, ⟨h, -⟩ | ⟨h, -⟩⟩ := (hmatch n x).exists_follow
    · exact Or.inl h
    · exact Or.inr h
  · exact (Matches.executes_iff fun n => hmatch n x).trans hruns.executes_iff
  · exact (Matches.halts_iff fun n => hmatch n x).trans hruns.halts_iff

end

/-! ## Runs -/

/-- A loop that is also left by a `return` from inside. -/
def leavesEarly : List Block :=
  [⟨0, [], .cond (.compare .eq (.localVar (.ofSlot 0 none .int)) (.intLit 0)) 4 1, []⟩,
    ⟨1, [], .cond (.compare .eq (.localVar (.ofSlot 1 none .int)) (.intLit 0)) 3 2, []⟩,
    ⟨2, [⟨.leave none, 2, 3, none⟩], .leave, []⟩,
    ⟨3, [⟨.increment (.ofSlot 0 none .int) 1, 3, 4, none⟩], .goto 0, []⟩,
    ⟨4, [⟨.leave none, 4, 5, none⟩], .leave, []⟩]

theorem faithful_leavesEarly : Walk.Faithful (Structure.walked ⟨0, [], []⟩ leavesEarly ⟨[], [], []⟩ false) 0 := by
  generalize hl : Structure.walked ⟨0, [], []⟩ leavesEarly ⟨[], [], []⟩ false = l
  have hskip (b : BlockId) : Walk.skipPast? l b = none := by subst hl; rfl
  have htry (tries : List Nat) (b : BlockId) : l.pendingTry tries b = none := by subst hl; rfl
  have hblock : ∀ b ∈ [0, 1, 2, 3, 4], l.isBlock b = true := by subst hl; decide +kernel
  have hloop : l.loop? 0 = some ⟨0, [3], [0, 1, 3]⟩ := by subst hl; decide +kernel
  have hnone : ∀ b ∈ [1, 2, 3, 4], l.loop? b = none := by subst hl; decide +kernel
  have hbranch : Walk.branchForm l [⟨some 0, some 4, 1⟩] 3 2 none = .oneSided .fall none true := by
    subst hl; decide +kernel
  have hplain (s : Walk.State) {b : BlockId} (hb : b ∈ [1, 2, 3, 4]) : Walk.Plain l s b :=
    ⟨htry _ _, by simp [Walk.pendingLoop, hnone b hb]⟩
  have hone : l.block? 1 = leavesEarly[1]? := by subst hl; rfl
  have htwo : l.block? 2 = leavesEarly[2]? := by subst hl; rfl
  have hthree : l.block? 3 = leavesEarly[3]? := by subst hl; rfl
  have hfour : l.block? 4 = leavesEarly[4]? := by subst hl; rfl
  have hform : l.loopForm ⟨0, [3], [0, 1, 3]⟩ =
      .guarded (.compare .ne (.localVar (.ofSlot 0 none .int)) (.intLit 0)) 1 4 := by subst hl; rfl
  have hat : Walk.LoopAt l .initial 0 ⟨0, [3], [0, 1, 3]⟩ := ⟨hloop, by simp [htry]⟩
  -- from the inside out: the side that leaves, the rest of the body, the loop, the end
  have hside : Walk.Region l true [⟨some 0, some 4, 1⟩] 2 none false [] _ _ _ _ :=
    .last ⟨by simp, by decide, fun _ => rfl⟩ (hskip 2) (hblock 2 (by decide))
      (.ends (hplain ⟨[1, 0], [0], [], [], [], 1, false, []⟩ (by decide)) htwo rfl)
  have hrest (out : List Tree) : Walk.Region l true [⟨some 0, some 4, 1⟩] 3 none false out _ _ _ _ :=
    .next ⟨by simp, by decide, fun _ => rfl⟩ (hskip 3) (hblock 3 (by decide))
      (.goes (hplain ⟨[2, 1, 0], [0], [], [], [], 1, false, []⟩ (by decide)) hthree rfl)
      (.jump (by simp) rfl)
  have hbody : Walk.Region l true [⟨some 0, some 4, 1⟩] 1 none false [] _ _ _ _ :=
    .next ⟨by simp, by decide, fun _ => rfl⟩ (hskip 1) (hblock 1 (by decide))
      (.oneSided (hplain ⟨[0], [0], [], [], [], 1, false, []⟩ (by decide)) hone rfl (by decide) hbranch
        hside fun _ _ => rfl)
      (hrest _)
  have hend (out : List Tree) : Walk.Region l true [] 4 none false out _ _ _ _ :=
    .last ⟨by simp, by decide, fun _ => rfl⟩ (hskip 4) (hblock 4 (by decide))
      (.ends (hplain ⟨[3, 2, 1, 0], [0], [], [], [], 1, false, []⟩ (by decide)) hfour rfl)
  have hrun : Walk.Region l true [] 0 none false [] .initial _ _ _ :=
    .next ⟨by simp, by decide, fun _ => rfl⟩ (hskip 0) (hblock 0 (by decide))
      (.guarded hat hform (.present hbody)) (hend _)
  refine ⟨false, ?_⟩
  rw [Walk.run_eq (hblock 0 (by decide)) hrun]
  exact hrun

theorem sameRuns_leavesEarly : Walk.Faithful (Structure.walked ⟨0, [], []⟩ leavesEarly ⟨[], [], []⟩ false) 0 ∧
      SameRuns.{0} (structureMethod ⟨0, [], []⟩ leavesEarly ⟨[], [], []⟩ false).stmts leavesEarly 0 := by
  have hseq : ∀ b ∈ leavesEarly, b.Sequential := by
    simp [leavesEarly, Block.Sequential, Stmt.isTerminal]
  exact ⟨faithful_leavesEarly, sameRuns_structureMethod ⟨by decide, by decide, by decide⟩ hseq rfl rfl
    (by decide +kernel) (by decide) faithful_leavesEarly⟩

/-- Two branches that both skip to the end, or else end the method early. -/
def endsEarly : List Block :=
  [⟨0, [], .cond (.compare .eq (.localVar (.ofSlot 0 none .int)) (.intLit 0)) 4 1, []⟩,
    ⟨1, [⟨.expr (.intLit 1), 1, 2, none⟩],
      .cond (.compare .eq (.localVar (.ofSlot 1 none .int)) (.intLit 0)) 4 2, []⟩,
    ⟨2, [⟨.expr (.intLit 2), 2, 3, none⟩], .goto 3, []⟩,
    ⟨3, [⟨.leave none, 3, 4, none⟩], .leave, []⟩,
    ⟨4, [⟨.leave none, 4, 5, none⟩], .leave, []⟩]

/-- The value of a variable or a number, where all slots hold 1 but one that holds 0. -/
def valueAt (i : UInt16) : Expr → Int32
  | .localVar v => if v.index = i then 0 else 1
  | .intLit n => n
  | _ => 0

def holdsAt (i : UInt16) : Expr → Bool
  | .compare op l r => op.ofInts (valueAt i l) (valueAt i r)
  | .not e => !holdsAt i e
  | .boolLit b => b
  | .logical .and l r => holdsAt i l && holdsAt i r
  | .logical .or l r => holdsAt i l || holdsAt i r
  | _ => false

def zeroAt (i : UInt16) : Interpretation Unit where
  run _ x := x
  holds e _ := holdsAt i e
  holds_compare op _ _ _ := op.ofInts_negate _ _
  holds_not _ _ := rfl
  holds_boolLit _ _ := rfl
  holds_and _ _ _ := rfl
  holds_or _ _ _ := rfl

/-- The second branch has a side that comes to the end of the first one. It is written as if it
ended the method, and what ends early is executed after it. -/
theorem not_sameRuns_endsEarly : Block.IsMap endsEarly 0 ∧ (∀ b ∈ endsEarly, b.Sequential) ∧
      (structureMethod ⟨0, [], []⟩ endsEarly ⟨[], [], []⟩ false).approximate = false ∧
      ¬SameRuns.{0} (structureMethod ⟨0, [], []⟩ endsEarly ⟨[], [], []⟩ false).stmts endsEarly 0 := by
  have hseq : ∀ b ∈ endsEarly, b.Sequential := by
    simp [endsEarly, Block.Sequential, Stmt.isTerminal]
  refine ⟨⟨by decide, by decide, by decide⟩, hseq, by decide +kernel, fun h => ?_⟩
  obtain ⟨-, hexec, -⟩ := h (zeroAt 1) ()
  generalize hts : (structureMethod ⟨0, [], []⟩ endsEarly ⟨[], [], []⟩ false).stmts = ts at hexec
  have htree : ((execList (zeroAt 1).actions 0 ts ()).trace[1]?).map (·.start) = some 2 := by
    subst hts
    decide +kernel
  have hblocks : ((Block.follow (zeroAt 1) endsEarly 3 0 ()).trace[1]?).map (·.start) = some 4 := by
    decide +kernel
  have hnone : (Block.follow (zeroAt 1) endsEarly 3 0 ()).position = none := by decide +kernel
  obtain ⟨s, hs, hstart⟩ := Option.map_eq_some_iff.mp htree
  have := Block.getElem?_of_none hnone ((hexec 1 s).mp ⟨0, hs⟩)
  rw [this] at hblocks
  simp [hstart] at hblocks

end JvmLift

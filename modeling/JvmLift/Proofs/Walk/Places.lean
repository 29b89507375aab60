import JvmLift.Proofs.Walk.Conservation
import JvmLift.Proofs.Walk.Handlers
import JvmLift.Proofs.Walk.Scope
import JvmLift.Proofs.Walk.Unique

/-!
# Places that jumps lead to

The walk is repeated with a place in front of every block that a `goto` leads to. Some blocks are not written at all:
the latch of a loop that is tested there, and the way into a finalizer and out of it.
-/
namespace JvmLift

open List

open JvmLift.Tree (Mark marks)

/-! ## Blocks that are not written -/

namespace Layout

def isTestedLatch (l : Layout) (b : BlockId) : Bool :=
  l.loops.any fun info =>
    match l.loopForm info with
    | .tested latch _ _ => latch == b
    | .guarded .. | .endless _ => false

/-- Does the block stand for the way into a finalizer or out of it? -/
def isCleanupEnd (l : Layout) (b : BlockId) : Bool :=
  l.protection.plans.any fun plan =>
    plan.cleanup.any fun f =>
      b == f.handler || b == f.bodyStop || f.subroutine.any fun r => b == r.1

/-- Blocks that count as written without being written with a place in front. -/
def isSilent (l : Layout) (b : BlockId) : Bool := l.isTestedLatch b || l.isCleanupEnd b

end Layout

namespace Walk

theorem blockLabel_injective {m n} (h : blockLabel m = blockLabel n) : m = n := by
  have hd : Nat.toDigits 10 m = Nat.toDigits 10 n := by
    simpa [blockLabel] using congrArg String.toList h
  rw [← Nat.ofDigitChars_ten_toDigits (n := m), hd, Nat.ofDigitChars_ten_toDigits]

/-- Between two states every `goto` leads to a block that was written before, and places stand in
front of blocks written in between, one in front of each that needs one. -/
structure Places (l : Layout) (s s' : State) (ms : List Mark) : Prop where
  gotos : ∀ name, .goto name ∈ ms → ∃ b ∈ s'.gotos, b ∈ s'.visited ∧ name = blockLabel b
  fresh : ∀ name, .place name ∈ ms → ∃ b, name = blockLabel b ∧ b ∈ s'.visited ∧ b ∉ s.visited
  nodup : (ms.filterMap Mark.place?).Nodup
  placed : ∀ b ∈ s'.visited, b ∉ s.visited → b ∈ l.labels → l.isSilent b = false →
    .place (blockLabel b) ∈ ms

section

variable {l : Layout} {strict : Bool} {b : BlockId} {s s1 s2 s' : State} {ms ms' : List Mark}

namespace Places

theorem silent (h : ∀ b ∈ s'.visited, b ∈ s.visited ∨ l.isSilent b = true) : Places l s s' [] where
  gotos := nofun
  fresh := nofun
  nodup := nodup_nil
  placed b hb hnew _ hloud := by
    rcases h b hb with h | h
    · exact absurd h hnew
    · exact Bool.noConfusion (hloud.symm.trans h)

theorem refl (h : s'.visited = s.visited) : Places l s s' [] := silent fun _ hb => .inl (h ▸ hb)

theorem append (h : Places l s s1 ms) (h' : Places l s1 s' ms') (hg : Grows s s1) (hg' : Grows s1 s') :
    Places l s s' (ms ++ ms') where
  gotos name hn := by
    rcases mem_append.mp hn with hn | hn
    · obtain ⟨b, hb, hv, rfl⟩ := h.gotos name hn
      exact ⟨b, hg'.gotos hb, hg'.visited hv, rfl⟩
    · exact h'.gotos name hn
  fresh name hn := by
    rcases mem_append.mp hn with hn | hn
    · obtain ⟨b, rfl, hb, hnew⟩ := h.fresh name hn
      exact ⟨b, rfl, hg'.visited hb, hnew⟩
    · obtain ⟨b, rfl, hb, hnew⟩ := h'.fresh name hn
      exact ⟨b, rfl, hb, fun hold => hnew (hg.visited hold)⟩
  nodup := by
    rw [filterMap_append, nodup_append]
    refine ⟨h.nodup, h'.nodup, ?_⟩
    rintro name hn _ hn' rfl
    obtain ⟨b, rfl, hb, -⟩ := h.fresh _ (Mark.mem_place?.mp hn)
    obtain ⟨b', heq, -, hnew⟩ := h'.fresh _ (Mark.mem_place?.mp hn')
    exact hnew (blockLabel_injective heq ▸ hb)
  placed b hb hnew hlabel hloud := by
    by_cases hb1 : b ∈ s1.visited
    · exact mem_append_left _ (h.placed b hb1 hnew hlabel hloud)
    · exact mem_append_right _ (h'.placed b hb hb1 hlabel hloud)

theorem label (h : Places l s s' ms) (name : String) : Places l s s' (.label name :: ms) where
  gotos name hn := h.gotos name (by simpa using hn)
  fresh name hn := h.fresh name (by simpa using hn)
  nodup := h.nodup
  placed b hb hnew hlabel hloud := mem_cons_of_mem _ (h.placed b hb hnew hlabel hloud)

theorem wrap {t} (h : Places l s s' (marks [t])) (label : Nat) : Places l s s' (marks [s'.wrap label t]) := by
  unfold State.wrap
  split
  · exact h.label _
  · exact h

theorem goto (hv : b ∈ s.visited) : Places l s (s.noteGoto b) (marks [.goto (blockLabel b)]) where
  gotos name hn := by
    obtain rfl : name = blockLabel b := by simpa using hn
    exact ⟨b, mem_cons_self .., hv, rfl⟩
  fresh name hn := by simp at hn
  nodup := nodup_nil
  placed b' hb hnew := absurd hb hnew

theorem labelOf (hv : b ∉ s.visited) : Places l s (s.visit b) (marks (Walk.labelOf l b)) := by
  unfold Walk.labelOf
  split
  · refine ⟨by simp, fun name hn => ?_, by simp [Mark.place?], fun b' hb hnew _ _ => ?_⟩
    · obtain rfl : name = blockLabel b := by simpa using hn
      exact ⟨b, rfl, mem_cons_self .., hv⟩
    · rcases mem_cons.mp hb with rfl | hb
      · exact mem_singleton_self _
      · exact absurd hb hnew
  · rename_i hno
    refine ⟨by simp, by simp, nodup_nil, fun b' hb hnew hlabel _ => ?_⟩
    rcases mem_cons.mp hb with rfl | hb
    · exact absurd (contains_iff_mem.mpr hlabel) hno
    · exact absurd hb hnew

end Places

/-! ## Constructs -/

theorem isSilent_latch {info latch follow test} (h : LoopAt l s b info)
    (hf : l.loopForm info = .tested latch test follow) : l.isSilent latch = true := by
  have hmem : info ∈ l.loops := by
    have hp := h.pending
    unfold pendingLoop at hp
    split at hp
    · cases hp
    · exact mem_of_find?_eq_some hp
  have hlatch : l.isTestedLatch latch = true := by
    refine any_eq_true.mpr ⟨info, hmem, ?_⟩
    simp [hf]
  simp [Layout.isSilent, hlatch]

theorem silent_visitCleanup {f} (h : HasCleanup l (some f)) :
    ∀ b ∈ (s.visitCleanup f).visited, b ∈ s.visited ∨ l.isSilent b = true := by
  obtain ⟨plan, hplan, hf⟩ := h f rfl
  intro b hb
  have hend : b ∈ s.visited ∨
      (b == f.handler || b == f.bodyStop || f.subroutine.any fun r => b == r.1) = true := by
    revert hb
    unfold State.visitCleanup
    cases f.subroutine <;> simp [State.visit] <;> grind
  refine hend.imp_right fun hend => ?_
  have hcleanup : l.isCleanupEnd b = true :=
    any_eq_true.mpr ⟨plan, hplan, by rw [hf]; exact hend⟩
  simp [Layout.isSilent, hcleanup]

theorem gathers_marks (hlocks : l.PlainLocks) : Gathers l Tree.mark? (Places l) where
  linear := by constructor <;> intros <;> rfl
  trans := Places.append
  still hv _ := .refl hv
  goto _ _ hv := .goto hv
  block s b block hv _ := by
    unfold blockTrees
    rw [Tree.picked_append, Tree.picked_stmtsOf fun _ => rfl, append_nil]
    exact .labelOf hv
  wrap _ _ _ _ h := h.wrap _
  loops := by
    refine .inr ⟨fun _ _ => rfl, fun _ _ => rfl, fun _ _ _ _ _ _ hv _ _ => .labelOf hv,
      fun s _ _ _ latch _ _ hl hf => ?_⟩
    have hnone : marks (latchTrees l latch) = [] := by
      unfold latchTrees
      cases l.block? latch with
      | none => rfl
      | some block => exact Tree.picked_stmtsOf (fun _ => rfl) block
    rw [← marks, hnone]
    refine .silent fun b hb => ?_
    rcases mem_cons.mp hb with rfl | hb
    · exact .inr (isSilent_latch hl hf)
    · exact .inl hb
  tries := .inr {
    locks := hlocks
    synchronized := fun _ _ => rfl
    simple := fun _ => rfl
    finalizer := fun _ _ hf => .silent (silent_visitCleanup hf)
    lock := fun _ _ _ _ _ => .refl rfl
    region := fun _ _ _ _ _ _ _ _ => .refl rfl }

end

variable {labels : List BlockId}

/-- Places do not change where control goes on after a region if no block with a place only jumps
elsewhere. -/
theorem passJumps_labels {l : Layout} (hn : l.labels = [])
    (h : ∀ b ∈ labels, l.jumpTarget? b = none) (done : List Nat) (bounds : List BlockId) (n : Nat)
    (seen : List BlockId) (b : BlockId) :
    Layout.passJumps { l with labels } done bounds n seen b = l.passJumps done bounds n seen b := by
  induction n generalizing seen b with
  | zero => rfl
  | succ n ih =>
      unfold Layout.passJumps
      by_cases hb : b ∈ labels
      · have hjump : l.jumpTarget? b = none := h b hb
        have hjump' : Layout.jumpTarget? { l with labels } b = none := hjump
        simp only [hjump, hjump', ite_self]
      · have hb' : labels.contains b = l.labels.contains b := by simp [hn, hb]
        simp only [hb']
        exact ite_congr rfl (fun _ => rfl) fun _ => by
          rw [show Layout.jumpTarget? { l with labels } b = l.jumpTarget? b from rfl]
          cases l.jumpTarget? b with
          | none => rfl
          | some t => exact ih _ t

theorem chaseSkips_labels (l : Layout) (labels : List BlockId) :
    Layout.chaseSkips { l with labels } = l.chaseSkips := by
  have hpass : ∀ n b, Layout.passSkips { l with labels } n b = l.passSkips n b := by
    intro n
    induction n with
    | zero => exact fun _ => rfl
    | succ n ih =>
        intro b
        simp only [Layout.passSkips, ih]
  exact funext fun b => hpass _ b

theorem relabels_of_jumpTarget {l : Layout} (hn : l.labels = [])
    (h : l.protection.plans = [] ∨ ∀ b ∈ labels, l.jumpTarget? b = none) : Relabels l labels := by
  intro plan hplan done bounds
  rcases h with h | h
  · rw [h] at hplan
    cases hplan
  · have hchase : ∀ b, Layout.chaseJumps { l with labels } done bounds b = l.chaseJumps done bounds b :=
      passJumps_labels hn h done bounds _ []
    have hexits : Layout.tryExits { l with labels } plan = l.tryExits plan := by
      unfold Layout.tryExits
      rw [chaseSkips_labels]
      rfl
    unfold Layout.tryFollow
    simp only [hchase, hexits]
    rfl

end Walk

/-! ## Method bodies -/

namespace Structure

/-- The blocks that jumps lead to which could not be structured. -/
def residual (cf : ControlFlow) (blocks : List Block) (p : Protection) (fold : Bool) : List BlockId :=
  (Walk.run (layout cf blocks p fold) cf.entry).2.gotos

end Structure

open Structure

/-- Every `goto` has exactly one place to lead to, if every block that is jumped to is written with
a place in front and no region ends behind such a block. -/
theorem count_place_structureMethod (cf : ControlFlow) (blocks : List Block) (p : Protection) (fold : Bool)
    (hlocks : (layout cf blocks p fold).PlainLocks)
    (hloud : ∀ b ∈ residual cf blocks p fold, (layout cf blocks p fold).isSilent b = false) (hjump : p.plans = [] ∨
      ∀ b ∈ residual cf blocks p fold, (layout cf blocks p fold).jumpTarget? b = none)
    (name : String) (hgoto : .goto name ∈ Tree.nodesList (structureMethod cf blocks p fold).stmts) :
    ((Tree.nodesList (structureMethod cf blocks p fold).stmts).filterMap Tree.placeName?).count name =
      1 := by
  rw [structureMethod_eq, Tree.goto_mem_marks] at hgoto
  rw [structureMethod_eq, Tree.filterMap_nodesList Tree.placeName?_eq]
  have hentry : (walked cf blocks p fold).isBlock cf.entry = true := by
    by_contra hno
    simp [bodyOf, Walk.run, hno] at hgoto
  obtain ⟨_, hfirst⟩ := Walk.run_region (layout cf blocks p fold) cf.entry hentry
  obtain ⟨_, hsecond⟩ := Walk.run_region (walked cf blocks p fold) cf.entry hentry
  have hlocks : (walked cf blocks p fold).PlainLocks := hlocks
  have hplaces := (hsecond.gathers (Walk.gathers_marks hlocks)).body
  -- Both walks go the same way, so the places of the second are the jumps of the second.
  have hsame : (Walk.run (walked cf blocks p fold) cf.entry).2.gotos = residual cf blocks p fold :=
    congrArg Walk.State.gotos
      (hfirst.agrees (Walk.relabels_of_jumpTarget rfl hjump) hsecond).2.1.symm
  obtain ⟨b, hb, hseen, rfl⟩ := hplaces.gotos name hgoto
  rw [hsame] at hb
  have hplace := hplaces.placed b hseen (by simp [Walk.State.initial]) hb (hloud b hb)
  exact List.count_eq_one_of_mem hplaces.nodup (Tree.Mark.mem_place?.mpr hplace)

theorem count_place_twoWaysIn : (∀ b ∈ residual ⟨0, [], []⟩ twoWaysIn ⟨[], [], []⟩ false, b = 2) ∧
      ((Tree.nodesList (structureMethod ⟨0, [], []⟩ twoWaysIn ⟨[], [], []⟩ false).stmts).filterMap
        Tree.placeName?).count "L2" = 1 :=
  ⟨by decide +kernel,
    count_place_structureMethod _ twoWaysIn ⟨[], [], []⟩ false nofun (by decide +kernel) (.inl rfl) "L2"
      (Tree.goto_mem_marks.mpr (by decide +kernel))⟩

/-- Two ways lead to block 4, which is a loop on its own. -/
def jumpToLatch : List Block :=
  [⟨0, [], .cond (.boolLit true) 2 1, []⟩, ⟨1, [], .cond (.boolLit true) 4 3, []⟩,
    ⟨2, [], .cond (.boolLit true) 4 3, []⟩, ⟨3, [⟨.expr (.intLit 3), 3, 4, none⟩], .goto 4, []⟩,
    ⟨4, [⟨.expr (.intLit 4), 4, 5, none⟩], .cond (.boolLit true) 4 5, []⟩,
    ⟨5, [⟨.leave none, 5, 6, none⟩], .leave, []⟩]

/-- The latch of a loop that is tested there has no place in front, and a `goto` may lead to it. -/
theorem no_place_jumpToLatch : Block.IsMap jumpToLatch 0 ∧
      .goto "L4" ∈ Tree.nodesList (structureMethod ⟨0, [], []⟩ jumpToLatch ⟨[], [], []⟩ false).stmts ∧
      ((Tree.nodesList (structureMethod ⟨0, [], []⟩ jumpToLatch ⟨[], [], []⟩ false).stmts).filterMap
        Tree.placeName?).count "L4" = 0 :=
  ⟨⟨by decide, by decide, by decide⟩, Tree.goto_mem_marks.mpr (by decide +kernel), by decide +kernel⟩

end JvmLift

import JvmLift.Proofs.Block.Fold
import JvmLift.Proofs.Block.Names
import JvmLift.Proofs.Meaning.Effects

/-!
# Folding conditions keeps what is seen

The owner of an absorbed block evaluates in one condition what the two blocks evaluated one after the other, nothing
twice or in another order, even where conditions have effects.
-/
namespace JvmLift

open List

universe u

variable {σ : Type u} {I : Effects σ} {b : BlockId}

namespace Effects

variable {blocks blocks' : List Block}

theorem caseTarget_mem (key : Expr) (d : BlockId) (cases : List (Int32 × BlockId)) (v : Int32) :
    caseTarget d cases v ∈ (Exit.switch key d cases).targets := by
  simp only [Exit.targets, caseTarget, mem_sortedSet, mem_append, mem_singleton]
  cases hv : cases.lookup v with
  | none => exact Or.inr rfl
  | some t =>
      obtain ⟨l1, l2, rfl, -⟩ := lookup_eq_some_iff.mp hv
      simp

theorem leave_mem {exit x t} (h : (I.leave exit x).result = .ok t) : t ∈ exit.targets := by
  cases exit with
  | fall u | goto u => simpa [leave, Observed.done, Exit.targets, eq_comm] using h
  | cond e taken fall =>
      obtain ⟨b, -, rfl⟩ := map_eq_ok.mp h
      rw [Exit.mem_targets_cond]
      cases b <;> simp
  | switch key d cases =>
      obtain ⟨v, -, rfl⟩ := map_eq_ok.mp h
      exact caseTarget_mem key d cases v
  | leave | throw | ret => cases h

theorem step_mem {b x t} (h : (I.step b x).result = .ok t) : t ∈ b.succs := by
  unfold step at h
  cases hr : (I.runAll b.stmts x).result with
  | error e =>
      rw [Observed.andThen_of_error hr] at h
      cases h
  | ok _ =>
      rw [Observed.andThen_of_ok hr] at h
      exact leave_mem h

theorem follow_succ {block} (hb : Block.find? blocks b = some block) (k : Nat) (x : σ) :
    I.follow blocks (k + 1) b x = (I.step block x).andThen (I.follow blocks k) := by
  rw [follow, hb]

theorem follow_add (k m : Nat) (b : BlockId) (x : σ) :
    I.follow blocks (k + m) b x = (I.follow blocks k b x).andThen (I.follow blocks m) := by
  induction k generalizing b x with
  | zero => simp [follow]
  | succ k ih =>
      rw [Nat.succ_add]
      cases hb : Block.find? blocks b with
      | none => simp [follow, hb]
      | some block =>
          rw [follow_succ hb, follow_succ hb, Observed.andThen_assoc]
          congr
          funext t y
          exact ih t y

/-! ## Runs that are seen to be the same -/

/-- What stays so in longer runs holds of some run of either kind. -/
theorem exists_iff_of_longer {α : Type u} {run' run : Nat → α} (h : ∀ k, ∃ k' ≥ k, run' k = run k') {P : α → Prop}
    (hP : ∀ k d, P (run k) → P (run (k + d))) : (∃ k, P (run' k)) ↔ ∃ k, P (run k) := by
  constructor
  · rintro ⟨k, hk⟩
    obtain ⟨k', -, heq⟩ := h k
    exact ⟨k', heq ▸ hk⟩
  · rintro ⟨k, hk⟩
    obtain ⟨k', hle, heq⟩ := h k
    obtain ⟨d, rfl⟩ := Nat.exists_eq_add_of_le hle
    exact ⟨k, heq ▸ hP k d hk⟩

/-- Going through some blocks is going through others, through no fewer of them. -/
def SeenAs (I : Effects σ) (blocks' blocks : List Block) (b : BlockId) : Prop :=
  ∀ k x, ∃ k' ≥ k, I.follow blocks' k b x = I.follow blocks k' b x

namespace SeenAs

variable {b : BlockId} {x : σ}

theorem refl (blocks : List Block) (b : BlockId) : SeenAs I blocks blocks b :=
  fun k _ => ⟨k, Nat.le_refl k, rfl⟩

theorem trans {blocks1 blocks2 blocks3} (h : SeenAs I blocks1 blocks2 b)
    (h' : SeenAs I blocks2 blocks3 b) : SeenAs I blocks1 blocks3 b := by
  intro k x
  obtain ⟨k', hk', heq⟩ := h k x
  obtain ⟨k'', hk'', heq'⟩ := h' k' x
  exact ⟨k'', Nat.le_trans hk' hk'', heq.trans heq'⟩

theorem sees_iff (h : SeenAs I blocks' blocks b) {i o} : I.Sees blocks' b x i o ↔ I.Sees blocks b x i o := by
  refine exists_iff_of_longer (P := fun r => r.trace[i]? = some o) (fun k => h k x) fun k d hk => ?_
  obtain ⟨hi, -⟩ := List.getElem?_eq_some_iff.mp hk
  rw [follow_add]
  cases hr : (I.follow blocks k b x).result with
  | error e => rwa [Observed.andThen_of_error hr]
  | ok t => rwa [Observed.andThen_of_ok hr, Observed.trace_behind, getElem?_append_left hi]

theorem ends_iff (h : SeenAs I blocks' blocks b) {e y} : I.Ends blocks' b x e y ↔ I.Ends blocks b x e y := by
  refine exists_iff_of_longer (P := fun r => r.result = .error e ∧ r.state = y) (fun k => h k x) fun k d hk => ?_
  rw [follow_add, Observed.andThen_of_error hk.1]
  exact ⟨rfl, hk.2⟩

end SeenAs

theorem andThen_follow {r : Observed σ BlockId} {k}
    (h : ∀ t, r.result = .ok t → ∀ y, ∃ k' ≥ k, I.follow blocks' k t y = I.follow blocks k' t y) :
    ∃ k' ≥ k, r.andThen (I.follow blocks' k) = r.andThen (I.follow blocks k') := by
  cases hr : r.result with
  | error e =>
      refine ⟨k, Nat.le_refl k, ?_⟩
      rw [Observed.andThen_of_error hr, Observed.andThen_of_error hr]
  | ok t =>
      obtain ⟨k', hk', heq⟩ := h t hr r.state
      refine ⟨k', hk', ?_⟩
      rw [Observed.andThen_of_ok hr, Observed.andThen_of_ok hr, heq]

end Effects

/-! ## One absorption -/

namespace Fold

variable {blocks : List Block} {kept : List BlockId} {b1 b2 : Block} {exit : Exit}

theorem find?_absorb {owner gone} (hb : b ≠ gone) : Block.find? (absorb owner gone exit blocks) b =
      (Block.find? blocks b).map fun c => if c.id = owner then { c with exit } else c := by
  unfold absorb Block.find?
  induction blocks with
  | nil => rfl
  | cons c rest ih =>
      have hid : (if c.id = owner then { c with exit } else c).id = c.id := by split <;> rfl
      rw [map_cons, filter_cons, hid]
      by_cases hc : c.id = b
      · rw [if_pos (by simpa [hc] using hb), find?_cons_of_pos (by rw [hid, hc, beq_self_eq_true]),
          find?_cons_of_pos (by simp [hc])]
        rfl
      · split
        · rw [find?_cons_of_neg (by simp [hid, hc]), ih, find?_cons_of_neg (by simp [hc])]
        · rw [ih, find?_cons_of_neg (by simp [hc])]

theorem leave_onFall {e1 e2 t1 t2 f2} (h : onFall e1 e2 t1 t2 f2 = some exit) (x : σ) :
    I.leave exit x = (I.eval e1 x).andThen fun b y => if b then .done t1 y else I.leave (.cond e2 t2 f2) y := by
  unfold onFall at h
  split at h
  · rename_i ht
    cases h
    simp only [Effects.leave, Effects.eval, Observed.andThen_map]
    congr
    funext b y
    cases b <;> simp [ht]
  · split at h
    · rename_i hf
      cases h
      simp only [Effects.leave, Effects.eval, Effects.eval_negate, Observed.andThen_map]
      congr
      funext b y
      cases b with
      | true => simp
      | false =>
          simp only [Bool.false_eq_true, if_false, Observed.map_map]
          congr
          funext c
          cases c <;> simp [hf]
    · cases h

theorem leave_onTaken {e1 e2 f1 t2 f2} (h : onTaken e1 e2 f1 t2 f2 = some exit) (x : σ) :
    I.leave exit x = (I.eval e1 x).andThen fun b y => if b then I.leave (.cond e2 t2 f2) y else .done f1 y := by
  unfold onTaken at h
  split at h
  · rename_i hf
    cases h
    simp only [Effects.leave, Effects.eval, Observed.andThen_map]
    congr
    funext b y
    cases b <;> simp [hf]
  · split at h
    · rename_i ht
      cases h
      simp only [Effects.leave, Effects.eval, Effects.eval_negate, Observed.andThen_map]
      congr
      funext b y
      cases b with
      | false => simp
      | true =>
          simp only [if_true, Observed.map_map]
          congr
          funext c
          cases c <;> simp [ht]
    · cases h

section

variable (h : Absorbs blocks kept b1 b2 exit)

include h

theorem Absorbs.leave (x : σ) :
    I.leave exit x = (I.leave b1.exit x).andThen fun t y => if t = b2.id then I.leave b2.exit y else .done t y := by
  have hloop := h.not_mem_succs
  obtain ⟨e1, t1, f1, e2, t2, f2, he1, he2, hg⟩ := h.tests
  simp only [Block.succs, he2, Exit.mem_targets_cond] at hloop
  rw [he1, he2, Effects.leave, Observed.map_andThen]
  rcases hg with ⟨rfl, hx⟩ | ⟨rfl, hx⟩
  · have hshare : t1 ≠ b2.id := by
      unfold onFall at hx
      grind
    rw [leave_onFall hx]
    congr
    funext b y
    cases b <;> simp [hshare]
  · have hshare : f1 ≠ b2.id := by
      unfold onTaken at hx
      grind
    rw [leave_onTaken hx]
    congr
    funext b y
    cases b <;> simp [hshare]

theorem Absorbs.follow_owner_seen (hn : (blocks.map (·.id)).Nodup) (k : Nat) (hnext : ∀ t ≠ b2.id, ∀ y, ∃ k' ≥ k,
      I.follow (absorb b1.id b2.id exit blocks) k t y = I.follow blocks k' t y) (x : σ) :
    ∃ k' ≥ k + 1, I.follow (absorb b1.id b2.id exit blocks) (k + 1) b1.id x = I.follow blocks k' b1.id x := by
  have hfind : Block.find? blocks b1.id = some b1 := (Block.find?_eq_some hn).mpr ⟨h.owner, rfl⟩
  have hfind2 : Block.find? blocks b2.id = some b2 := (Block.find?_eq_some hn).mpr ⟨h.gone, rfl⟩
  have hfind' : Block.find? (absorb b1.id b2.id exit blocks) b1.id = some { b1 with exit } := by
    rw [find?_absorb h.ne.symm, hfind]
    simp
  have hstep : I.step { b1 with exit } x = (I.step b1 x).andThen fun t y =>
      if t = b2.id then I.leave b2.exit y else .done t y := by
    unfold Effects.step
    rw [Observed.andThen_assoc]
    congr
    funext _ y
    exact h.leave y
  rw [Effects.follow_succ hfind', hstep, Observed.andThen_assoc]
  cases hr : (I.step b1 x).result with
  | error e =>
      refine ⟨k + 1, Nat.le_refl _, ?_⟩
      rw [Effects.follow_succ hfind, Observed.andThen_of_error hr, Observed.andThen_of_error hr]
  | ok t =>
      rw [Observed.andThen_of_ok hr]
      by_cases ht : t = b2.id
      · obtain ⟨k', hk', heq⟩ := Effects.andThen_follow
          fun t' ht' => hnext t' fun hid => h.not_mem_succs (hid ▸ Effects.leave_mem ht')
        refine ⟨k' + 2, Nat.succ_le_succ (Nat.le_succ_of_le hk'), ?_⟩
        have hbare (y : σ) : I.step b2 y = I.leave b2.exit y := by simp [Effects.step, h.bare, Effects.runAll]
        rw [if_pos ht, heq, Effects.follow_succ hfind, Observed.andThen_of_ok hr, ht, Effects.follow_succ hfind2, hbare]
      · obtain ⟨k', hk', heq⟩ := hnext t ht (I.step b1 x).state
        refine ⟨k' + 1, Nat.succ_le_succ hk', ?_⟩
        rw [if_neg ht, Observed.done_andThen, heq, Effects.follow_succ hfind, Observed.andThen_of_ok hr]

theorem Absorbs.seenAs (hn : (blocks.map (·.id)).Nodup)
    (hb : b ≠ b2.id) : Effects.SeenAs I (absorb b1.id b2.id exit blocks) blocks b := by
  intro k
  induction k generalizing b with
  | zero => exact fun x => ⟨0, Nat.le_refl 0, rfl⟩
  | succ k ih =>
      intro x
      cases hfind : Block.find? blocks b with
      | none =>
          refine ⟨k + 1, Nat.le_refl _, ?_⟩
          rw [Effects.follow, Effects.follow, find?_absorb hb, hfind]
          rfl
      | some c =>
          obtain ⟨hmem, rfl⟩ := (Block.find?_eq_some hn).mp hfind
          by_cases howner : c.id = b1.id
          · rw [howner]
            exact h.follow_owner_seen hn k (fun t ht => ih ht) x
          · have hfind' : Block.find? (absorb b1.id b2.id exit blocks) c.id = some c := by
              rw [find?_absorb hb, hfind]
              simp [howner]
            -- another block does not lead to the absorbed one
            obtain ⟨k', hk', heq⟩ := Effects.andThen_follow fun t ht => ih fun hid =>
              howner (h.only_pred ⟨c, hmem, rfl, hid ▸ Effects.step_mem ht⟩)
            refine ⟨k' + 1, Nat.succ_le_succ hk', ?_⟩
            rw [Effects.follow_succ hfind', Effects.follow_succ hfind, heq]

end

theorem seenAs_run (hn : (blocks.map (·.id)).Nodup) (n : Nat)
    (hb : b ∈ (run kept n blocks).1.map (·.id)) : Effects.SeenAs I (run kept n blocks).1 blocks b := by
  refine (run_induction (motive := fun bs => (bs.map (·.id)).Nodup ∧
    (b ∈ bs.map (·.id) → Effects.SeenAs I bs blocks b)) ?_ n ⟨hn, fun _ => .refl _ _⟩).2 hb
  intro bs b1 b2 exit habs ⟨hn, hr⟩
  refine ⟨nodup_absorb b1.id b2.id hn, fun hb => ?_⟩
  rw [map_id_absorb] at hb
  simp only [mem_filter, decide_eq_true_eq] at hb
  exact (habs.seenAs hn hb.2).trans (hr hb.1)

/-! ## What is removed -/

/-- Blocks are absorbed one after the other. Each one only tests, may go, and is entered from one block of
those that are left when it goes. -/
inductive Removes (kept : List BlockId) : List Block → List Block → List Block → Prop where
  | nothing (blocks : List Block) : Removes kept blocks [] blocks
  | next {blocks removed left : List Block} {gone : Block} (owner : BlockId) (exit : Exit)
      (mem : gone ∈ blocks) (free : gone.id ∉ kept) (bare : gone.stmts = [])
      (test : ∃ e t f, gone.exit = .cond e t f) (alone : predCount blocks gone.id = 1)
      (rest : Removes kept (absorb owner gone.id exit blocks) removed left) :
      Removes kept blocks (gone :: removed) left

theorem removes_run (kept : List BlockId) (n : Nat) (blocks : List Block) :
    ∃ removed, Removes kept blocks removed (run kept n blocks).1 ∧ removed.length = (run kept n blocks).2 := by
  induction n generalizing blocks with
  | zero => exact ⟨[], .nothing blocks, rfl⟩
  | succ n ih =>
      unfold run
      split
      · exact ⟨[], .nothing blocks, rfl⟩
      · rename_i owner gone exit hc
        obtain ⟨b1, b2, habs, rfl, rfl⟩ := candidate?_some hc
        obtain ⟨removed, hr, hlen⟩ := ih (absorb b1.id b2.id exit blocks)
        obtain ⟨-, -, -, e, t, f, -, he, -⟩ := habs.tests
        exact ⟨b2 :: removed, .next b1.id exit habs.gone habs.free habs.bare ⟨e, t, f, he⟩ habs.alone hr,
          congrArg (· + 1) hlen⟩

end Fold

def Block.content (b : Block) : BlockId × List Located × List Expr := (b.id, b.stmts, b.stack)

namespace Fold

variable {blocks removed left : List Block} {kept : List BlockId}

theorem map_content_absorb (owner gone : BlockId) (exit : Exit) (blocks : List Block) :
    (absorb owner gone exit blocks).map Block.content = (blocks.map Block.content).filter (·.1 ≠ gone) := by
  have hcontent (b : Block) : (if b.id = owner then { b with exit } else b).content = b.content := by
    split <;> rfl
  have hid (b : Block) : (if b.id = owner then { b with exit } else b).id = b.id := by
    split <;> rfl
  simp only [absorb, filter_map, List.map_map, Function.comp_def, hcontent, hid]
  rfl

theorem Removes.content (h : Removes kept blocks removed left) :
    left.map Block.content = (blocks.map Block.content).filter fun c => c.1 ∉ removed.map (·.id) := by
  induction h with
  | nothing blocks => simp
  | next owner exit _ _ _ _ _ _ ih =>
      rw [ih, map_content_absorb]
      simp [Bool.and_comm]

theorem Removes.free (h : Removes kept blocks removed left) : ∀ b ∈ removed, b.id ∉ kept := by
  induction h with
  | nothing blocks => simp
  | next owner exit _ hfree _ _ _ _ ih =>
      intro b hb
      rcases mem_cons.mp hb with rfl | hb
      · exact hfree
      · exact ih b hb

theorem length_absorb (owner : BlockId) (exit : Exit) {gone} (hn : (blocks.map (·.id)).Nodup)
    (hg : gone ∈ blocks) : (absorb owner gone.id exit blocks).length + 1 = blocks.length := by
  have hmem : gone.id ∈ blocks.map (·.id) := mem_map_of_mem hg
  have herase : (absorb owner gone.id exit blocks).map (·.id) = (blocks.map (·.id)).erase gone.id := by
    rw [map_id_absorb, hn.erase_eq_filter]
    congr
    funext b
    rw [Bool.eq_iff_iff, decide_eq_true_iff, bne_iff_ne]
  have hlen := congrArg List.length herase
  have hpos := length_pos_of_mem hg
  rw [length_erase_of_mem hmem, length_map, length_map] at hlen
  omega

theorem Removes.length (h : Removes kept blocks removed left) (hn : (blocks.map (·.id)).Nodup) :
    left.length + removed.length = blocks.length := by
  induction h with
  | nothing blocks => rfl
  | next owner exit hmem _ _ _ _ _ ih =>
      have hlen := ih (nodup_absorb _ _ hn)
      have hone := length_absorb owner exit hn hmem
      simp only [length_cons]
      omega

theorem candidate?_run {n} (hn : (blocks.map (·.id)).Nodup) (hlen : blocks.length ≤ n) :
    candidate? (run kept n blocks).1 kept = none := by
  induction n generalizing blocks with
  | zero =>
      obtain rfl := length_eq_zero_iff.mp (Nat.le_zero.mp hlen)
      rfl
  | succ n ih =>
      unfold run
      split
      · assumption
      · rename_i owner gone exit hc
        obtain ⟨b1, b2, habs, rfl, rfl⟩ := candidate?_some hc
        have hone := length_absorb b1.id exit hn habs.gone
        exact ih (nodup_absorb _ _ hn) (by omega)

end Fold

/-- Folding ends when nothing is left to absorb. It removes blocks that only test and are entered from one
place, none that is to be kept, and counts them. The other blocks keep what they execute, and from each of
them the same conditions are evaluated and the same statements executed in the same order as before,
whatever conditions and statements do. -/
theorem foldConditions_keeps_flow {blocks : List Block} (hn : (blocks.map (·.id)).Nodup) (kept : List BlockId) :
    Fold.candidate? (foldConditions blocks kept).1 kept = none ∧
      (∃ removed, Fold.Removes kept blocks removed (foldConditions blocks kept).1 ∧
        (∀ b ∈ removed, b.id ∉ kept) ∧ removed.length = (foldConditions blocks kept).2 ∧
        (foldConditions blocks kept).1.length + removed.length = blocks.length ∧
        (foldConditions blocks kept).1.map Block.content =
          (blocks.map Block.content).filter fun c => c.1 ∉ removed.map (·.id)) ∧
      ∀ (I : Effects σ), ∀ b ∈ (foldConditions blocks kept).1, ∀ x : σ,
        (∀ i o, I.Sees (foldConditions blocks kept).1 b.id x i o ↔ I.Sees blocks b.id x i o) ∧
          ∀ e y, I.Ends (foldConditions blocks kept).1 b.id x e y ↔ I.Ends blocks b.id x e y := by
  obtain ⟨removed, hr, hcount⟩ := Fold.removes_run kept blocks.length blocks
  refine ⟨Fold.candidate?_run hn (Nat.le_refl _), ⟨removed, hr, hr.free, hcount, hr.length hn, hr.content⟩, ?_⟩
  intro I b hb x
  have hseen := Fold.seenAs_run (I := I) hn blocks.length (List.mem_map_of_mem hb)
  exact ⟨fun _ _ => hseen.sees_iff, fun _ _ => hseen.ends_iff⟩

/-- Three tests in a row, the second one the other way round, that lead to the same block. -/
def Fold.threeTests : List Block :=
  let test (n : UInt16) : Expr := .compare .lt (.localVar (.ofSlot n none .int)) (.intLit 0)
  [⟨0, [], .cond (test 0) 4 1, []⟩, ⟨1, [], .cond (test 1) 2 4, []⟩, ⟨2, [], .cond (test 2) 4 3, []⟩,
    ⟨3, [], .goto 0, []⟩, ⟨4, [], .leave, []⟩]

theorem foldConditions_keeps_flow_threeTests :
    (Fold.threeTests.map (·.id)).Nodup ∧ (foldConditions Fold.threeTests [4]).2 = 2 ∧
      Fold.candidate? (foldConditions Fold.threeTests [4]).1 [4] = none ∧
      ∀ (I : Effects Nat), ∀ b ∈ (foldConditions Fold.threeTests [4]).1, ∀ x i o,
        I.Sees (foldConditions Fold.threeTests [4]).1 b.id x i o ↔ I.Sees Fold.threeTests b.id x i o := by
  have hn : (Fold.threeTests.map (·.id)).Nodup := by decide
  refine ⟨hn, by decide, (foldConditions_keeps_flow (σ := Nat) hn [4]).1, fun I b hb x i o => ?_⟩
  exact ((foldConditions_keeps_flow hn [4]).2.2 I b hb x).1 i o

end JvmLift

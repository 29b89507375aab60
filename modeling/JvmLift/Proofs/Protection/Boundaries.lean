import JvmLift.Proofs.Flow.Blocks
import JvmLift.Proofs.Instruction.Tiling
import JvmLift.Proofs.Protection.Copies
import JvmLift.Proofs.Structure.Layout

/-!
# Boundaries of plans

Ranges that plans speak of start and end between instructions, and blocks start there too. So no block
lies half in a range that is taken out or that is moved into a finalizer.
-/
namespace JvmLift

open List

namespace Protection

open Instruction (Contiguous codeEnd IsBoundary isBoundary_offset isBoundary_next)

/-- A range from one boundary of the code to another, both of them in a list of leaders. -/
structure Anchored (code : List Instruction) (leaders : List Nat) (r : Range) : Prop where
  start : IsBoundary code r.1
  stop : IsBoundary code r.2
  start_mem : r.1 ∈ leaders
  stop_mem : r.2 ∈ leaders

theorem Anchored.mono {code leaders leaders' r}
    (h : Anchored code leaders r) (hsub : leaders ⊆ leaders') : Anchored code leaders' r :=
  ⟨h.start, h.stop, hsub h.start_mem, hsub h.stop_mem⟩

section

variable {code : List Instruction} {r : Range}

/-! ## What is recognized -/

variable {rest : List Instruction}

theorem codeFrom_eq_cons {pc i} (h : codeFrom code pc = i :: rest) : i :: rest <:+ code ∧ i.offset = pc := by
  refine ⟨h ▸ dropWhile_suffix _, ?_⟩
  have hhead := head?_dropWhile_not (fun i : Instruction => i.offset != pc) code
  rw [codeFrom] at h
  rw [h] at hhead
  simpa using hhead

variable {slot : UInt16}

theorem rethrowIn?_eq_some {pc} (h : rethrowIn? slot rest = some pc) : ∃ i ∈ rest, i.offset = pc := by
  fun_induction rethrowIn? slot rest with
  | case1 a b rest => exact ⟨a, mem_cons_self, Option.some.inj h⟩
  | case2 => cases h
  | case3 a b rest _ _ ih =>
      obtain ⟨i, hi, hpc⟩ := ih h
      exact ⟨i, mem_cons_of_mem a hi, hpc⟩
  | case4 => cases h

theorem isBoundary_rethrowHandler? (hcode : Contiguous 0 code) {handler}
    (h : rethrowHandler? code handler = some (slot, r)) : IsBoundary code r.1 ∧ IsBoundary code r.2 := by
  unfold rethrowHandler? at h
  split at h
  · rename_i store rest hfrom
    obtain ⟨_, -, h⟩ := Option.bind_eq_some_iff.mp h
    obtain ⟨rethrow, hrethrow, h⟩ := Option.bind_eq_some_iff.mp h
    cases h
    obtain ⟨hsuffix, -⟩ := codeFrom_eq_cons hfrom
    obtain ⟨i, hi, rfl⟩ := rethrowIn?_eq_some hrethrow
    exact ⟨isBoundary_next hcode (hsuffix.subset mem_cons_self),
      isBoundary_offset (hsuffix.subset (mem_cons_of_mem store hi))⟩
  · cases h

theorem isBoundary_subroutine? (hcode : Contiguous 0 code) {entry sub}
    (h : subroutine? code entry = some sub) : (IsBoundary code sub.body.1 ∧ IsBoundary code sub.body.2) ∧
      IsBoundary code sub.whole.1 ∧ IsBoundary code sub.whole.2 := by
  unfold subroutine? at h
  split at h
  · rename_i store rest hfrom
    obtain ⟨_, -, h⟩ := Option.bind_eq_some_iff.mp h
    obtain ⟨ret, hret, h⟩ := Option.bind_eq_some_iff.mp h
    cases h
    obtain ⟨hsuffix, rfl⟩ := codeFrom_eq_cons hfrom
    have hstore : store ∈ code := hsuffix.subset mem_cons_self
    have hret : ret ∈ code := hsuffix.subset (mem_cons_of_mem store (mem_of_find?_eq_some hret))
    exact ⟨⟨isBoundary_next hcode hstore, isBoundary_offset hret⟩,
      isBoundary_offset hstore, isBoundary_next hcode hret⟩
  · cases h

variable {handlers : List BlockId}

theorem isBoundary_findCopies (hcode : Contiguous 0 code) {body start handler claimed}
    (h : r ∈ findCopies code body start handler handlers claimed) : IsBoundary code r.1 ∧ IsBoundary code r.2 := by
  obtain ⟨i, part, hpart, -, rfl⟩ := mem_findCopies h
  have hsubrun := hpart.trans (codeIn_subrun hcode _)
  refine ⟨isBoundary_offset (hsubrun.subset mem_cons_self), ?_⟩
  have hend : codeEnd i.next part = ((i :: part).getLast (cons_ne_nil i part)).next := by
    rw [← Instruction.codeEnd_cons 0]
    rfl
  rw [hend]
  exact isBoundary_next hcode (hsubrun.subset (getLast_mem _))

/-! ## What is planned -/

structure Anchors (code : List Instruction) (c : Classified) : Prop where
  claims : ∀ r ∈ c.claims, Anchored code (planLeaders c.plan) r
  body : ∀ f, c.plan.cleanup = some f → Anchored code (planLeaders c.plan) (f.bodyStart, f.bodyStop)

section

variable (hcode : Contiguous 0 code)

include hcode

theorem anchors_classifyJsr {entry sub}
    (h : subroutine? code entry = some sub) (extent : Range) (catches : List CatchPlan) (handler : Nat)
    (slot : UInt16) (afterMonitor : Bool) :
    Anchors code (classifyJsr code extent catches handler slot sub afterMonitor) := by
  obtain ⟨hbody, hwhole⟩ := isBoundary_subroutine? hcode h
  constructor
  · intro r hr
    rw [classifyJsr, mem_singleton] at hr
    subst hr
    exact ⟨hwhole.1, hwhole.2, by simp [classifyJsr, planLeaders], by simp [classifyJsr, planLeaders]⟩
  · intro f hf
    cases hf
    exact ⟨hbody.1, hbody.2, by simp [classifyJsr, planLeaders], by simp [classifyJsr, planLeaders]⟩

theorem anchors_classifyInlined {any bodyRange}
    (h : rethrowHandler? code any.handler = some (slot, bodyRange)) (extent : Range) (catches : List CatchPlan)
    (handlers : List BlockId) (claimed : List Range) (afterMonitor : Bool) :
    Anchors code (classifyInlined code extent catches any slot bodyRange handlers claimed afterMonitor) := by
  obtain ⟨hstart, hstop⟩ := isBoundary_rethrowHandler? hcode h
  constructor
  · intro r hr
    obtain ⟨hstart, hstop⟩ := isBoundary_findCopies hcode hr
    have hmem : ∀ pc, pc = r.1 ∨ pc = r.2 → pc ∈ planLeaders
        (classifyInlined code extent catches any slot bodyRange handlers claimed afterMonitor).plan := by
      intro pc hpc
      simp only [classifyInlined, planLeaders, mem_append, mem_flatMap]
      exact .inl (.inr ⟨r, hr, by simpa using hpc⟩)
    exact ⟨hstart, hstop, hmem _ (.inl rfl), hmem _ (.inr rfl)⟩
  · intro f hf
    cases hf
    exact ⟨hstart, hstop, by simp [classifyInlined, planLeaders], by simp [classifyInlined, planLeaders]⟩

theorem anchors_classify (handlers : List BlockId) (claimed : List Range)
    (extent : Range) (group : List HandlerGroup) : Anchors code (classify code handlers claimed extent group) := by
  unfold classify
  split
  · exact ⟨nofun, nofun⟩
  · split
    · split
      · rename_i hsub
        exact anchors_classifyJsr hcode hsub ..
      · exact ⟨nofun, nofun⟩
    · split
      · rename_i hbody
        exact anchors_classifyInlined hcode hbody ..
      · exact ⟨nofun, nofun⟩
  · exact ⟨nofun, nofun⟩

theorem mem_claimed_classifyAll {claimed regions} (h : r ∈ (classifyAll code handlers claimed regions).2) :
    r ∈ claimed ∨ ∃ plan ∈ (classifyAll code handlers claimed regions).1, Anchored code (planLeaders plan) r := by
  induction regions generalizing claimed with
  | nil => exact .inl h
  | cons region rest ih =>
      rcases ih h with h | ⟨plan, hplan, hr⟩
      · rcases mem_append.mp h with h | h
        · exact .inl h
        · exact .inr ⟨_, mem_cons_self, (anchors_classify hcode ..).claims r h⟩
      · exact .inr ⟨plan, mem_cons_of_mem _ hplan, hr⟩

end

variable {edges : List HandlerEdge}

theorem planLeaders_subset {plan} (h : plan ∈ (analyze code edges).plans) :
    planLeaders plan ⊆ (analyze code edges).extraLeaders :=
  fun _ hpc => mem_sortedSet.mpr (mem_flatMap.mpr ⟨plan, h, hpc⟩)

/-- A range that is taken out of the flow, or the body of a finalizer. -/
def Cuts (p : Protection) (r : Range) : Prop :=
  r ∈ p.skipped ∨ ∃ plan ∈ p.plans, ∃ f, plan.cleanup = some f ∧ r = (f.bodyStart, f.bodyStop)

theorem anchored_analyze (hcode : Contiguous 0 code) (h : (analyze code edges).Cuts r) :
    Anchored code (analyze code edges).extraLeaders r := by
  rcases h with h | ⟨plan, hplan, f, hf, rfl⟩
  · rcases mem_claimed_classifyAll hcode h with h | ⟨plan, hplan, hr⟩
    · cases h
    · exact hr.mono (planLeaders_subset hplan)
  · obtain ⟨claimed, extent, group, hclassify⟩ := mem_classifyAll hplan
    have hbody := (anchors_classify hcode _ claimed extent group).body f (hclassify ▸ hf)
    rw [← hclassify] at hbody
    exact hbody.mono (planLeaders_subset hplan)

end

/-! ## Blocks -/

/-- Whatever is taken out of the flow or moved into a finalizer starts and ends at an instruction or at
the end of the code. Blocks are wholly inside it or outside, and start at both of its ends. -/
theorem blocks_respect_plans {bytes : Bytes} {code : List Instruction}
    (hdecode : Instruction.decodeAll bytes = .ok code) (edges : List HandlerEdge) (r : Range)
    (hr : (analyze code edges).Cuts r) :
    (∀ pc, pc = r.1 ∨ pc = r.2 → ((∃ i ∈ code, i.offset = pc) ∨ pc = bytes.length) ∧
        (pc ≠ bytes.length →
          ∃ b ∈ (ControlFlow.build code edges (analyze code edges).extraLeaders).blocks, b.id = pc)) ∧
      ∀ b ∈ (ControlFlow.build code edges (analyze code edges).extraLeaders).blocks,
        (r.1 ≤ b.id ∧ b.stop ≤ r.2) ∨ b.stop ≤ r.1 ∨ r.2 ≤ b.id := by
  have hcode := Instruction.contiguous_decodeAll hdecode
  have hend := Instruction.codeEnd_decodeAll hdecode
  obtain ⟨hstart, hstop, hstartMem, hstopMem⟩ := anchored_analyze hcode hr
  have hleader : ∀ pc ∈ (analyze code edges).extraLeaders,
      pc ∈ ControlFlow.leaders code edges (analyze code edges).extraLeaders := by
    intro pc hpc
    simp [ControlFlow.leaders, hpc]
  constructor
  · intro pc hpc
    have hbound : IsBoundary code pc := by rcases hpc with rfl | rfl <;> assumption
    have hmem : pc ∈ (analyze code edges).extraLeaders := by rcases hpc with rfl | rfl <;> assumption
    rw [IsBoundary, hend] at hbound
    exact ⟨hbound, fun hne => ControlFlow.exists_block_of_leader (hleader pc hmem) (hbound.resolve_right hne)⟩
  · intro b hb
    have hs := ControlFlow.stop_le_or_le_id hcode hb (hleader _ hstartMem) hstart
    have he := ControlFlow.stop_le_or_le_id hcode hb (hleader _ hstopMem) hstop
    omega

/-- A call that is copied on the way out of a region, and the handler that makes it too. -/
theorem blocks_respect_callInTry :
    (analyze callInTry [⟨0, 3, 9, none⟩]).Cuts (3, 6) ∧ (analyze callInTry [⟨0, 3, 9, none⟩]).Cuts (10, 13) ∧
      ∀ b ∈ (ControlFlow.build callInTry [⟨0, 3, 9, none⟩] (analyze callInTry [⟨0, 3, 9, none⟩]).extraLeaders).blocks,
        (3 ≤ b.id ∧ b.stop ≤ 6) ∨ b.stop ≤ 3 ∨ 6 ≤ b.id := by
  have hdecode : Instruction.decodeAll (tryFinally [0xb8, 0, 2] [0xb8, 0, 3] [0xb8, 0, 3]) = .ok callInTry := rfl
  have hskipped : (analyze callInTry [⟨0, 3, 9, none⟩]).skipped = [(3, 6)] := by decide +kernel
  have hplans : (analyze callInTry [⟨0, 3, 9, none⟩]).plans =
      [⟨0, 3, .finallyInlined, [], some callInTryPlan, none, false⟩] := by decide +kernel
  have hcut : (analyze callInTry [⟨0, 3, 9, none⟩]).Cuts (3, 6) := .inl (hskipped ▸ List.mem_singleton_self _)
  refine ⟨hcut, .inr ⟨_, hplans ▸ List.mem_singleton_self _, _, rfl, rfl⟩, ?_⟩
  exact (blocks_respect_plans hdecode _ _ hcut).2

end Protection

end JvmLift

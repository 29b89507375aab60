import JvmLift.Proofs.Protection.Copies

/-!
# Code is taken out once

What one region takes out is closed to the later ones, and a scan goes on behind a copy. So no two of the ranges that
are taken out overlap, unless a subroutine is among them.
-/
namespace JvmLift.Protection

open List
open Instruction (Contiguous codeEnd)

def Apart (a b : Range) : Prop := a.2 ≤ b.1 ∨ b.2 ≤ a.1

def Proper (code : List Instruction) (r : Range) : Prop := (∃ i ∈ code, i.offset = r.1) ∧ r.1 < r.2

def planCopies (p : TryPlan) : List Range := p.cleanup.toList.flatMap (·.copies)

variable {code : List Instruction}

/-! ## One scan -/

theorem pairwise_scanCopies {n} (hn : n ≠ 0) (matchesBody : List Instruction → Bool) {start} (skip : Nat)
    (h : Contiguous start code) : (scanCopies n matchesBody skip code).Pairwise (fun a b => a.2 ≤ b.1) ∧
      ∀ r ∈ scanCopies n matchesBody skip code, codeEnd start (code.take skip) ≤ r.1 := by
  induction code generalizing start skip with
  | nil => cases skip <;> exact ⟨.nil, nofun⟩
  | cons i rest ih =>
      obtain ⟨rfl, hlt, hrest⟩ := h
      cases skip with
      | succ skip =>
          rw [take_succ_cons, Instruction.codeEnd_cons]
          exact ih skip hrest
      | zero =>
          rw [scanCopies]
          split
          · obtain ⟨m, rfl⟩ := Nat.exists_eq_succ_of_ne_zero hn
            obtain ⟨hpairs, hbehind⟩ := ih m hrest
            refine ⟨.cons (fun r hr => ?_) hpairs, forall_mem_cons.mpr ⟨Nat.le_refl _, fun r hr => ?_⟩⟩
            · exact Nat.le_trans (Nat.le_of_eq (Instruction.codeEnd_cons i.next i (rest.take m))) (hbehind r hr)
            · have hpart := (Instruction.contiguous_append.mp ((take_append_drop m rest).symm ▸ hrest)).1
              have := hpart.le_codeEnd
              have := hbehind r hr
              show i.offset ≤ r.1
              omega
          · obtain ⟨hpairs, hbehind⟩ := ih 0 hrest
            refine ⟨hpairs, fun r hr => ?_⟩
            have : i.next ≤ r.1 := hbehind r hr
            show i.offset ≤ r.1
            omega

section

variable {start : Nat} (hcode : Contiguous start code)

include hcode

theorem pairwise_findCopies (body : List Instruction) (first handler : Nat) (handlers : List BlockId)
    (claimed : List Range) : (findCopies code body first handler handlers claimed).Pairwise (fun a b => a.2 ≤ b.1) := by
  unfold findCopies
  split
  · exact .nil
  · rename_i hbody
    obtain ⟨_, hpart⟩ := hcode.of_subrun (codeIn_subrun hcode (first, handler))
    exact (pairwise_scanCopies (by simpa using hbody) _ 0 hpart).1

variable {r : Range} {body : List Instruction} {first handler : Nat} {handlers : List BlockId} {claimed : List Range}

theorem findCopies_bounds (h : r ∈ findCopies code body first handler handlers claimed) :
    Proper code r ∧ first ≤ r.1 ∧ r.2 ≤ handler := by
  obtain ⟨i, part, hpart, hcopy, rfl⟩ := mem_findCopies h
  have hsubrun := hpart.trans (codeIn_subrun hcode _)
  obtain ⟨_, -, hlt, hrest⟩ := hcode.of_subrun hsubrun
  have hfirst := (mem_filter.mp (hpart.subset mem_cons_self)).2
  rw [Range.contains, Bool.and_eq_true, decide_eq_true_eq] at hfirst
  unfold isCopy at hcopy
  rw [Bool.and_eq_true, decide_eq_true_eq] at hcopy
  have hend : codeEnd 0 (i :: part) ≤ handler := hcopy.2
  rw [Instruction.codeEnd_cons] at hend
  exact ⟨⟨⟨i, hsubrun.subset mem_cons_self, rfl⟩, Nat.lt_of_lt_of_le hlt hrest.le_codeEnd⟩, hfirst.1, hend⟩

/-- If they overlapped, the one would start at an instruction of the other; no instruction of a copy is claimed. -/
theorem apart_of_claimed {c} (hc : c ∈ claimed) (hproper : Proper code c)
    (h : r ∈ findCopies code body first handler handlers claimed) : Apart c r := by
  obtain ⟨i, part, hpart, hcopy, rfl⟩ := mem_findCopies h
  have hrange := codeIn_of_subrun hcode (hpart.trans (codeIn_subrun hcode _))
  unfold isCopy at hcopy
  simp only [Bool.and_eq_true, all_eq_true, Bool.not_eq_true'] at hcopy
  have hfree : ∀ j ∈ i :: part, ¬ (c.1 ≤ j.offset ∧ j.offset < c.2) := by
    intro j hj
    have := any_eq_false.mp (hcopy.1.1.2 j hj) c hc
    simpa [Range.contains] using this
  obtain ⟨⟨j, hj, hstart⟩, hlt⟩ := hproper
  have hhead := hfree i mem_cons_self
  have hinner : ¬ (i.offset ≤ c.1 ∧ c.1 < codeEnd i.next part) := by
    intro hin
    refine hfree j (hrange ▸ mem_filter.mpr ⟨hj, ?_⟩) (by omega)
    simpa [Range.contains, hstart] using hin
  unfold Apart
  omega

end

/-! ## All regions -/

section

variable (hjsr : ∀ i ∈ code, ∀ t, i.op ≠ .jsr t)

include hjsr

theorem jsrHandler?_eq_none (handler : Nat) : jsrHandler? code handler = none := by
  unfold jsrHandler?
  split
  · rename_i store call load throw rest hfrom
    have hmem : call ∈ code := (dropWhile_suffix _).subset (hfrom ▸ mem_cons_of_mem _ mem_cons_self)
    cases refStore? store with
    | none => rfl
    | some slot =>
        split
        · rename_i hop
          exact absurd hop (hjsr call hmem _)
        · rfl
  · rfl

theorem claims_classify (handlers : List BlockId) (claimed : List Range) (extent : Range) (group : List HandlerGroup) :
    (classify code handlers claimed extent group).claims = planCopies (classify code handlers claimed extent group).plan ∧
      ∃ body first handler, (classify code handlers claimed extent group).claims =
        findCopies code body first handler handlers claimed := by
  have hnone : ∃ body first handler, [] = findCopies code body first handler handlers claimed := ⟨[], 0, 0, rfl⟩
  unfold classify
  split
  · exact ⟨rfl, hnone⟩
  · rw [jsrHandler?_eq_none hjsr]
    dsimp only
    split
    · exact ⟨(append_nil _).symm, _, _, _, rfl⟩
    · exact ⟨rfl, hnone⟩
  · exact ⟨rfl, hnone⟩

variable {start : Nat} (hcode : Contiguous start code)

include hcode

theorem skipped_classifyAll (handlers : List BlockId) (claimed : List Range) (hproper : ∀ c ∈ claimed, Proper code c)
    (hapart : claimed.Pairwise Apart) (regions : List (Range × List HandlerGroup)) :
    (classifyAll code handlers claimed regions).2.Pairwise Apart ∧ (classifyAll code handlers claimed regions).2 =
        claimed ++ (classifyAll code handlers claimed regions).1.flatMap planCopies := by
  induction regions generalizing claimed with
  | nil => exact ⟨hapart, (append_nil _).symm⟩
  | cons region rest ih =>
      obtain ⟨hclaims, body, first, handler, hcopies⟩ := claims_classify hjsr handlers claimed region.1 region.2
      have hgrown : (claimed ++ (classify code handlers claimed region.1 region.2).claims).Pairwise Apart := by
        rw [hcopies]
        refine pairwise_append.mpr ⟨hapart, (pairwise_findCopies hcode ..).imp Or.inl, fun c hc r hr => ?_⟩
        exact apart_of_claimed hcode hc (hproper c hc) hr
      have hall : ∀ c ∈ claimed ++ (classify code handlers claimed region.1 region.2).claims, Proper code c := by
        intro c hc
        rcases mem_append.mp hc with hc | hc
        · exact hproper c hc
        · exact (findCopies_bounds hcode (hcopies ▸ hc)).1
      obtain ⟨hpairs, heq⟩ := ih _ hall hgrown
      refine ⟨hpairs, heq.trans ?_⟩
      rw [append_assoc]
      exact congrArg (fun copies => claimed ++ (copies ++ _)) hclaims

end

/-- In code without subroutines, what is taken out are the copies of the finalizers, and no two of them overlap. Each
one lies between the start of its region and the handler, and has the shape of the finalizer. -/
theorem skipped_apart {bytes} (hdecode : Instruction.decodeAll bytes = .ok code)
    (hjsr : ∀ i ∈ code, ∀ t, i.op ≠ .jsr t) (edges : List HandlerEdge) : (analyze code edges).skipped.Pairwise Apart ∧
      (analyze code edges).skipped = (analyze code edges).plans.flatMap planCopies ∧
      ∀ plan ∈ (analyze code edges).plans, ∀ f, plan.cleanup = some f → ∀ r ∈ f.copies,
        (plan.start ≤ r.1 ∧ r.1 < r.2 ∧ r.2 ≤ f.handler) ∧ Resembles code edges plan f (codeIn code r) := by
  have hcode := Instruction.contiguous_decodeAll hdecode
  obtain ⟨hpairs, heq⟩ := skipped_classifyAll hjsr hcode ((HandlerGroup.ofEdges edges).map (·.handler)) []
    nofun .nil (regions (HandlerGroup.ofEdges edges))
  refine ⟨hpairs, heq, fun plan hplan f hf r hr => ⟨?_, resembles_copy hcode hplan hf hr⟩⟩
  obtain ⟨claimed, extent, group, rfl⟩ := mem_classifyAll hplan
  obtain ⟨hproper, hstart, hstop⟩ := findCopies_bounds hcode (copies_classify hf hr)
  exact ⟨hstart, hproper.2, hstop⟩

def calledTwice : List Instruction := ⟨0, 0xb8, 3, .invokeStatic 3⟩ :: callInTry.tail

theorem skipped_apart_calledTwice :
    Instruction.decodeAll (tryFinally [0xb8, 0, 3] [0xb8, 0, 3] [0xb8, 0, 3]) = .ok calledTwice ∧
      (∀ i ∈ calledTwice, ∀ t, i.op ≠ .jsr t) ∧ (analyze calledTwice [⟨0, 3, 9, none⟩]).skipped = [(0, 3), (3, 6)] ∧
      (analyze calledTwice [⟨0, 3, 9, none⟩]).skipped.Pairwise Apart := by
  have hdecode : Instruction.decodeAll (tryFinally [0xb8, 0, 3] [0xb8, 0, 3] [0xb8, 0, 3]) = .ok calledTwice := rfl
  have hjsr : ∀ i ∈ calledTwice, ∀ t, i.op ≠ .jsr t := by simp [calledTwice, callInTry]
  exact ⟨hdecode, hjsr, by decide +kernel, (skipped_apart hdecode hjsr _).1⟩

end JvmLift.Protection

import JvmLift.Proofs.Instruction.Decode
import JvmLift.Protection.Analysis

/-!
# Copies of a finalizer

Copies of a finalizer are found by their shape, that is without slots and with distances for targets. What is taken
out is a copy if nothing else between the start of the region and the handler has this shape.
-/
namespace JvmLift

open List

/-! ## Shapes -/

namespace Operation

variable {τ σ υ : Type}

def eraseSlot : Operation τ → Operation τ
  | .load k _ => .load k 0
  | .store k _ => .store k 0
  | .increment _ v => .increment 0 v
  | .ret _ => .ret 0
  | op => op

def readSlot? : Operation τ → Option UInt16
  | .load _ n | .increment n _ | .ret n => some n
  | _ => none

def storedSlot? : Operation τ → Option UInt16
  | .store _ n => some n
  | _ => none

theorem mapTargets_mapTargets (f : τ → σ) (g : σ → υ) (op : Operation τ) :
    (op.mapTargets f).mapTargets g = op.mapTargets (g ∘ f) := by
  cases op <;> simp [mapTargets]

theorem eraseSlot_mapTargets (f : τ → σ) (op : Operation τ) :
    (op.mapTargets f).eraseSlot = op.eraseSlot.mapTargets f := by
  cases op <;> rfl

end Operation

namespace Protection

open Instruction (Contiguous codeEnd)

theorem shapeKey_eq (i : Instruction) :
    shapeKey i = (i.op.mapTargets fun (t : Nat) => (t : Int) - i.offset).eraseSlot := by
  unfold shapeKey Operation.eraseSlot
  cases i.op <;> rfl

/-- Does some code read the same slots as other code, except those that this has stored to? -/
def readsAlike : List UInt16 → List Instruction → List Instruction → Bool
  | stored, b :: body, c :: copy =>
      b.op.readSlot?.all (fun n => stored.contains n || c.op.readSlot? == some n) &&
        readsAlike (b.op.storedSlot?.toList ++ stored) body copy
  | _, _, _ => true

/-- Some code, instruction by instruction, at a distance. -/
structure Repeats (copy body : List Instruction) (distance : Int) : Prop where
  offsets : copy.map (fun i => (i.offset : Int)) = body.map fun i => i.offset + distance
  ops : copy.map (fun i => (i.op.mapTargets fun (t : Nat) => (t : Int)).eraseSlot) =
    body.map fun i => (i.op.mapTargets fun (t : Nat) => (t : Int) + distance).eraseSlot
  slots : readsAlike [] body copy = true

/-- Consecutive instructions between the start of a region and its handler that have the shape of
the finalizer. -/
structure Resembles (code : List Instruction) (edges : List HandlerEdge) (plan : TryPlan)
    (f : FinallyPlan) (part : List Instruction) : Prop where
  consecutive : part <:+: code
  inside : ∀ i ∈ part, plan.start ≤ i.offset ∧ i.next ≤ f.handler
  entered : ∀ i ∈ part.tail, ∀ e ∈ edges, e.start < e.stop → e.handler ≠ i.offset
  shape : part.map shapeKey = (codeIn code (f.bodyStart, f.bodyStop)).map shapeKey

/-! ## Ranges of contiguous code -/

variable {r : Range}

section

variable {start : Nat} {code part : List Instruction}

theorem codeIn_append (code code' : List Instruction) (r : Range) :
    codeIn (code ++ code') r = codeIn code r ++ codeIn code' r :=
  filter_append ..

section

variable (h : Contiguous start code)

include h

theorem codeIn_eq_nil (hr : r.2 ≤ start) : codeIn code r = [] := by
  refine filter_eq_nil_iff.mpr fun i hi => ?_
  have := (h.bounds hi).1
  simp only [Range.contains, Bool.and_eq_true, decide_eq_true_eq]
  omega

theorem codeIn_initial (hr : r.1 ≤ start) : codeIn code r <+: code := by
  induction code generalizing start with
  | nil => exact prefix_rfl
  | cons i rest ih =>
      by_cases hlt : start < r.2
      · obtain ⟨rfl, hnext, hrest⟩ := h
        have hi : r.contains i.offset = true := by simp [Range.contains, hr, hlt]
        have hcons : codeIn (i :: rest) r = i :: codeIn rest r := filter_cons_of_pos hi
        rw [hcons]
        exact (prefix_cons_inj i).mpr (ih hrest (by omega))
      · rw [codeIn_eq_nil h (by omega)]
        exact nil_prefix

theorem codeIn_subrun (r : Range) : codeIn code r <:+: code := by
  induction code generalizing start with
  | nil => exact infix_rfl
  | cons i rest ih =>
      by_cases hle : r.1 ≤ start
      · exact (codeIn_initial h hle).isInfix
      · obtain ⟨rfl, -, hrest⟩ := h
        have hi : ¬ r.contains i.offset = true := by simp [Range.contains, hle]
        have hcons : codeIn (i :: rest) r = codeIn rest r := filter_cons_of_neg hi
        rw [hcons]
        exact (ih hrest).trans (suffix_cons i rest).isInfix

theorem codeIn_of_subrun {i} (hp : i :: part <:+: code) : codeIn code (i.offset, codeEnd i.next part) = i :: part := by
  obtain ⟨before, after, rfl⟩ := hp
  obtain ⟨hleft, hafter⟩ := Instruction.contiguous_append.mp h
  obtain ⟨hbefore, hpart⟩ := Instruction.contiguous_append.mp hleft
  have hstart : i.offset = codeEnd start before := hpart.1
  have hend : codeEnd start (before ++ i :: part) = codeEnd i.next part := by
    rw [Instruction.codeEnd_append, Instruction.codeEnd_cons]
  rw [codeIn_append, codeIn_append, codeIn_eq_nil hafter (Nat.le_of_eq hend.symm), append_nil]
  have hnone : codeIn before (i.offset, codeEnd i.next part) = [] := by
    refine filter_eq_nil_iff.mpr fun j hj => ?_
    have := hbefore.bounds hj
    simp only [Range.contains, Bool.and_eq_true, decide_eq_true_eq]
    omega
  rw [hnone]
  refine filter_eq_self.mpr fun j hj => ?_
  have := hpart.bounds hj
  rw [Instruction.codeEnd_cons] at this
  simp only [Range.contains, Bool.and_eq_true, decide_eq_true_eq]
  omega

end

theorem offsets_eq {start' body} (h : Contiguous start part)
    (h' : Contiguous start' body) (hlen : part.map (·.length) = body.map (·.length)) :
    part.map (fun i => (i.offset : Int)) = body.map fun i => i.offset + ((start : Int) - start') := by
  induction part generalizing start start' body with
  | nil =>
      rw [map_nil, eq_comm, map_eq_nil_iff] at hlen
      rw [hlen]
      rfl
  | cons i part ih =>
      cases body with
      | nil => cases hlen
      | cons j body =>
          obtain ⟨rfl, -, h⟩ := h
          obtain ⟨rfl, -, h'⟩ := h'
          obtain ⟨hij, hlen⟩ : i.length = j.length ∧ part.map (·.length) = body.map (·.length) :=
            cons_eq_cons.mp hlen
          rw [map_cons, map_cons, ih h h' hlen]
          have hnext : (i.next : Int) - j.next = i.offset - j.offset := by
            unfold Instruction.next
            omega
          rw [hnext]
          congr 1
          omega

end

/-! ## What is found -/

variable {start : Nat} {edges : List HandlerEdge}

section

variable {code body : List Instruction} {handlers : List BlockId} {claimed : List Range} {r : Range}

theorem mem_scanCopies {n skip matchesBody} (hn : n ≠ 0)
    (h : r ∈ scanCopies n matchesBody skip code) : ∃ i part, i :: part <:+: code ∧ matchesBody (i :: part) = true ∧
      r = (i.offset, codeEnd i.next part) := by
  induction code generalizing skip with
  | nil => cases skip <;> cases h
  | cons i rest ih =>
      have later : ∀ skip', r ∈ scanCopies n matchesBody skip' rest → ∃ j part, j :: part <:+: i :: rest ∧
          matchesBody (j :: part) = true ∧ r = (j.offset, codeEnd j.next part) := by
        intro skip' h
        obtain ⟨j, part, hpart, hmatch, hr⟩ := ih h
        exact ⟨j, part, hpart.trans (suffix_cons i rest).isInfix, hmatch, hr⟩
      cases skip with
      | succ skip => exact later skip h
      | zero =>
          rw [scanCopies] at h
          split at h
          · rename_i hwindow
            rw [Bool.and_eq_true] at hwindow
            rcases mem_cons.mp h with rfl | h
            · cases n with
              | zero => exact absurd rfl hn
              | succ n =>
                  refine ⟨i, rest.take n, ?_, hwindow.2, ?_⟩
                  · exact ( take_prefix (n + 1) (i :: rest)).isInfix
                  · exact congrArg (Prod.mk _) (Instruction.codeEnd_cons i.next i (rest.take n))
            · exact later _ h
          · exact later 0 h

theorem mem_findCopies {handler} (h : r ∈ findCopies code body start handler handlers claimed) :
    ∃ i part, i :: part <:+: codeIn code (start, handler) ∧
      isCopy (body.map shapeKey) handler handlers claimed (i :: part) = true ∧ r = (i.offset, codeEnd i.next part) := by
  unfold findCopies at h
  split at h
  · cases h
  · rename_i hbody
    exact mem_scanCopies (by simpa using hbody) h

theorem copies_classify {extent group f}
    (hf : (classify code handlers claimed extent group).plan.cleanup = some f) (hr : r ∈ f.copies) :
    r ∈ findCopies code (codeIn code (f.bodyStart, f.bodyStop))
      (classify code handlers claimed extent group).plan.start f.handler handlers claimed := by
  revert hf
  unfold classify
  split
  · exact nofun
  · split
    · split
      · intro hf
        cases hf
        cases hr
      · exact nofun
    · split
      · intro hf
        cases hf
        exact hr
      · exact nofun
  · exact nofun

theorem mem_classifyAll {plan regions} (h : plan ∈ (classifyAll code handlers claimed regions).1) :
    ∃ claimed' extent group, plan = (classify code handlers claimed' extent group).plan := by
  induction regions generalizing claimed with
  | nil => cases h
  | cons region rest ih =>
      rcases mem_cons.mp h with rfl | h
      · exact ⟨_, _, _, rfl⟩
      · exact ih h

theorem handler_mem_addTo {e b} (groups : List HandlerGroup) :
    b ∈ (HandlerGroup.addTo e groups).map (·.handler) ↔ b = e.handler ∨ b ∈ groups.map (·.handler) := by
  induction groups with
  | nil => simp [HandlerGroup.addTo]
  | cons g rest ih =>
      unfold HandlerGroup.addTo
      split
      · rename_i hg
        simp [HandlerGroup.addRow, hg]
      · grind

theorem handler_mem_ofEdges {e} (he : e ∈ edges)
    (hlt : e.start < e.stop) : e.handler ∈ (HandlerGroup.ofEdges edges).map (·.handler) := by
  have hfold : ∀ (rows : List HandlerEdge) (groups : List HandlerGroup),
      (e ∈ rows ∨ e.handler ∈ groups.map (·.handler)) →
        e.handler ∈ (rows.foldl (fun hs e => HandlerGroup.addTo e hs) groups).map (·.handler) := by
    intro rows
    induction rows with
    | nil => exact fun groups h => h.resolve_left not_mem_nil
    | cons row rows ih =>
        intro groups h
        refine ih _ ?_
        rw [handler_mem_addTo]
        rcases h with h | h
        · rcases mem_cons.mp h with rfl | h
          · exact .inr (.inl rfl)
          · exact .inl h
        · exact .inr (.inr h)
  exact hfold _ [] (.inl (mem_filter.mpr ⟨he, by simpa using hlt⟩))

end

/-! ## What is taken out -/

section

variable {code : List Instruction} {edges : List HandlerEdge} {plan : TryPlan} {f : FinallyPlan}

theorem resembles_copy (hcode : Contiguous start code) (hplan : plan ∈ (analyze code edges).plans)
    (hf : plan.cleanup = some f) (hr : r ∈ f.copies) : Resembles code edges plan f (codeIn code r) := by
  obtain ⟨claimed, extent, group, rfl⟩ := mem_classifyAll hplan
  obtain ⟨i, part, hpart, hcopy, rfl⟩ := mem_findCopies (copies_classify hf hr)
  have hsubrun := hpart.trans (codeIn_subrun hcode _)
  rw [codeIn_of_subrun hcode hsubrun]
  unfold isCopy at hcopy
  simp only [Bool.and_eq_true, decide_eq_true_eq, all_eq_true, Bool.not_eq_true'] at hcopy
  obtain ⟨⟨⟨hshape, -⟩, hentries⟩, hend⟩ := hcopy
  refine ⟨hsubrun, fun j hj => ?_, fun j hj e he hlt heq => ?_, hshape⟩
  · have hstart := (mem_filter.mp (hpart.subset hj)).2
    rw [Range.contains, Bool.and_eq_true, decide_eq_true_eq] at hstart
    obtain ⟨start', hpart'⟩ := hcode.of_subrun hsubrun
    have hnext := (hpart'.bounds hj).2.2
    exact ⟨hstart.1, Nat.le_trans hnext hend⟩
  · have hmem := handler_mem_ofEdges he hlt
    rw [heq, ← contains_iff_mem, hentries j hj] at hmem
    cases hmem

theorem repeats_of_shape {start' copy body} (h : Contiguous start copy)
    (h' : Contiguous start' body) (hlen : copy.map (·.length) = body.map (·.length))
    (hshape : copy.map shapeKey = body.map shapeKey) (hslots : readsAlike [] body copy = true) :
    Repeats copy body ((start : Int) - start') where
  offsets := offsets_eq h h' hlen
  ops := by
    have hoffsets := offsets_eq h h' hlen
    generalize (start : Int) - start' = distance at hoffsets
    clear h h' hlen hslots
    induction copy generalizing body with
    | nil =>
        rw [map_nil, eq_comm, map_eq_nil_iff] at hshape
        rw [hshape]
        rfl
    | cons c copy ih =>
        cases body with
        | nil => cases hshape
        | cons b body =>
            obtain ⟨hkey, hshape⟩ : shapeKey c = shapeKey b ∧ _ := cons_eq_cons.mp hshape
            obtain ⟨hoffset, hoffsets⟩ : (c.offset : Int) = b.offset + distance ∧ _ :=
              cons_eq_cons.mp hoffsets
            rw [map_cons, ih hshape hoffsets]
            congr 1
            -- Targets are distances in the shapes; adding the offset gives them back.
            have hback := congrArg (Operation.mapTargets (· + (c.offset : Int))) hkey
            rw [shapeKey_eq, shapeKey_eq, ← Operation.eraseSlot_mapTargets, ← Operation.eraseSlot_mapTargets,
              Operation.mapTargets_mapTargets, Operation.mapTargets_mapTargets] at hback
            have hc : (· + (c.offset : Int)) ∘ (fun (t : Nat) => (t : Int) - c.offset) = fun (t : Nat) => (t : Int) :=
              funext fun t => by simp
            have hb : (· + (c.offset : Int)) ∘ (fun (t : Nat) => (t : Int) - b.offset) =
                fun (t : Nat) => (t : Int) + distance :=
              funext fun t => by simp only [Function.comp_apply]; omega
            rwa [hc, hb] at hback
  slots := hslots

/-- What is taken out always has the shape of the finalizer. Nothing of it is protected by the
finalizer if nothing of this shape is, and it repeats the finalizer if everything of this shape has
its encoding and reads the slots it reads. -/
theorem copies_analyze {bytes : Bytes} (hcode : Instruction.decodeAll bytes = .ok code)
    (hplan : plan ∈ (analyze code edges).plans) (hf : plan.cleanup = some f) (r : Range) (hr : r ∈ f.copies) :
    Resembles code edges plan f (codeIn code r) ∧
      ((∀ part, Resembles code edges plan f part → ∀ i ∈ part, ∀ e ∈ edges, e.handler = f.handler →
          e.covers i.offset = false) →
        ∀ i ∈ code, r.contains i.offset = true → ∀ e ∈ edges, e.handler = f.handler →
          e.covers i.offset = false) ∧
      ((∀ part, Resembles code edges plan f part →
          part.map (·.length) = (codeIn code (f.bodyStart, f.bodyStop)).map (·.length) ∧
            readsAlike [] (codeIn code (f.bodyStart, f.bodyStop)) part = true) →
        ∃ distance, Repeats (codeIn code r) (codeIn code (f.bodyStart, f.bodyStop)) distance) := by
  have hcontiguous := Instruction.contiguous_decodeAll hcode
  have hcopy := resembles_copy hcontiguous hplan hf hr
  refine ⟨hcopy, fun hfree i hi hin => hfree _ hcopy i (List.mem_filter.mpr ⟨hi, hin⟩), fun hlike => ?_⟩
  obtain ⟨hlen, hslots⟩ := hlike _ hcopy
  obtain ⟨_, hpart⟩ := hcontiguous.of_subrun hcopy.consecutive
  obtain ⟨_, hbody⟩ := hcontiguous.of_subrun (codeIn_subrun hcontiguous (f.bodyStart, f.bodyStop))
  exact ⟨_, repeats_of_shape hpart hbody hlen hcopy.shape hslots⟩

end

/-- Three bytes that are protected, three bytes on the way out, and three bytes in the handler. -/
def tryFinally (body exit cleanup : Bytes) : Bytes :=
  body ++ exit ++ [0xa7, 0, 10, 0x4c] ++ cleanup ++ [0x2b, 0xbf, 0, 0xb1]

def callInTry : List Instruction :=
  [⟨0, 0xb8, 3, .invokeStatic 2⟩, ⟨3, 0xb8, 3, .invokeStatic 3⟩, ⟨6, 0xa7, 3, .goto 16⟩,
    ⟨9, 0x4c, 1, .store .reference 1⟩, ⟨10, 0xb8, 3, .invokeStatic 3⟩, ⟨13, 0x2b, 1, .load .reference 1⟩,
    ⟨14, 0xbf, 1, .throw⟩, ⟨15, 0, 1, .nop⟩, ⟨16, 0xb1, 1, .leave none⟩]

def callInTryPlan : FinallyPlan := ⟨9, 1, 10, 13, [(3, 6)], none⟩

theorem resembles_callInTry {plan part}
    (h : Resembles callInTry edges plan callInTryPlan part) : part = [⟨3, 0xb8, 3, .invokeStatic 3⟩] := by
  have hcalls : ∀ i ∈ callInTry, [shapeKey i] = (codeIn callInTry (10, 13)).map shapeKey → i.next ≤ 9 →
      i = ⟨3, 0xb8, 3, .invokeStatic 3⟩ := by decide +kernel
  have hbody : (codeIn callInTry (10, 13)).length = 1 := by decide
  have hshape : part.map shapeKey = (codeIn callInTry (10, 13)).map shapeKey := h.shape
  have hlen : part.length = (codeIn callInTry (10, 13)).length := by
    simpa only [length_map] using congrArg List.length hshape
  obtain ⟨i, rfl⟩ := length_eq_one_iff.mp (hlen.trans hbody)
  rw [hcalls i (h.consecutive.subset (by simp)) h.shape (h.inside i (by simp)).2]

theorem copies_callInTry : Instruction.decodeAll (tryFinally [0xb8, 0, 2] [0xb8, 0, 3] [0xb8, 0, 3]) = .ok callInTry ∧
      (analyze callInTry [⟨0, 3, 9, none⟩]).plans =
        [⟨0, 3, .finallyInlined, [], some callInTryPlan, none, false⟩] ∧
      (∀ i ∈ callInTry, Range.contains (3, 6) i.offset = true →
        HandlerEdge.covers ⟨0, 3, 9, none⟩ i.offset = false) ∧
      ∃ distance, Repeats (codeIn callInTry (3, 6)) (codeIn callInTry (10, 13)) distance := by
  have hdecode : Instruction.decodeAll (tryFinally [0xb8, 0, 2] [0xb8, 0, 3] [0xb8, 0, 3]) =
      .ok callInTry := rfl
  have hplans : (analyze callInTry [⟨0, 3, 9, none⟩]).plans =
      [⟨0, 3, .finallyInlined, [], some callInTryPlan, none, false⟩] := by decide +kernel
  obtain ⟨-, hfree, hrepeats⟩ :=
    copies_analyze hdecode (hplans ▸ List.mem_singleton_self _) rfl (3, 6) (by decide)
  refine ⟨hdecode, hplans, fun i hi hin => hfree ?_ i hi hin _ (List.mem_singleton_self _) rfl,
    hrepeats ?_⟩
  · intro part hpart
    rw [resembles_callInTry hpart]
    decide
  · intro part hpart
    rw [resembles_callInTry hpart]
    decide +kernel

/-- A protected call that the finalizer makes too is taken out, and so is an increment of another
slot. -/
theorem copies_lookalikes :
    (∃ code, Instruction.decodeAll (tryFinally [0xb8, 0, 3] [0xb8, 0, 3] [0xb8, 0, 3]) = .ok code ∧
      (analyze code [⟨0, 3, 9, none⟩]).plans =
        [⟨0, 3, .finallyInlined, [], some ⟨9, 1, 10, 13, [(0, 3), (3, 6)], none⟩, none, false⟩] ∧
      HandlerEdge.covers ⟨0, 3, 9, none⟩ 0 = true) ∧
    ∃ code, Instruction.decodeAll (tryFinally [0xb8, 0, 2] [0x84, 2, 1] [0x84, 3, 1]) = .ok code ∧
      (analyze code [⟨0, 3, 9, none⟩]).plans =
        [⟨0, 3, .finallyInlined, [], some ⟨9, 1, 10, 13, [(3, 6)], none⟩, none, false⟩] ∧
      readsAlike [] (codeIn code (10, 13)) (codeIn code (3, 6)) = false := by
  exact ⟨⟨_, rfl, by decide +kernel, by decide⟩, _, rfl, by decide +kernel, by decide +kernel⟩

end Protection

end JvmLift

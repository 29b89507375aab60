import JvmLift.Proofs.Flow.NaturalLoops

/-!
# Natural loops are exact and form a forest

A loop is found for every node with an edge back to it from a node it dominates. Where all edges are normal and
everything is reachable, two loops are apart or one is inside the other.
-/
namespace JvmLift.FlowGraph

open Relation (ReflTransGen)

variable {g : FlowGraph} {info info₁ info₂ : Loop} {h latch x y : BlockId}

/-! ## What is found -/

/-- `b` is reachable, has a normal edge to `h`, and all paths to it pass `h`. -/
structure LeadsBack (g : FlowGraph) (h b : BlockId) : Prop where
  reachable : ∃ path, g.PathTo b path
  edge : h ∈ g.succs b
  dominated : ∀ path, g.PathTo b path → h ∈ path

theorem mem_latches_iff (he : g.isNode g.entry = true) :
    x ∈ g.latches g.dominators g.reversePostorder h ↔ g.LeadsBack h x := by
  rw [mem_latches he, mem_reversePostorder_iff he, cuts_iff]
  exact ⟨fun hx => ⟨hx.1, hx.2.2, hx.2.1⟩, fun hx => ⟨hx.reachable, hx.dominated, hx.edge⟩⟩

theorem LeadsBack.isNode (he : g.isNode g.entry = true) (hx : g.LeadsBack h x) : g.isNode h = true := by
  obtain ⟨path, hpath⟩ := hx.reachable
  by_contra hnode
  -- without `h` among the nodes, no path can pass it
  refine cuts_iff.mpr hx.dominated ⟨fun heq => hnode (heq ▸ he), ?_⟩
  refine ReflTransGen.mono (fun a b hab => ⟨hab, fun heq => hnode (heq ▸ isNode_of_mem_allSuccs hab)⟩) _ _ ?_
  exact exists_pathTo_iff.mp ⟨path, hpath⟩

theorem exists_header_iff (he : g.isNode g.entry = true) :
    (∃ info ∈ g.naturalLoops, info.header = h) ↔ ∃ b, g.LeadsBack h b := by
  constructor
  · rintro ⟨info, hinfo, rfl⟩
    obtain ⟨-, ⟨latch, hlatch⟩, heq⟩ := mem_naturalLoops.mp hinfo
    exact ⟨latch, (mem_latches_iff he).mp (heq ▸ hlatch)⟩
  · rintro ⟨b, hb⟩
    exact ⟨g.loopAt h, mem_naturalLoops.mpr ⟨hb.isNode he, ⟨b, (mem_latches_iff he).mpr hb⟩, rfl⟩, rfl⟩

/-- Headers are in ascending order, so that there is one loop for each. -/
theorem pairwise_header (g : FlowGraph) : (g.naturalLoops.map (·.header)).Pairwise (· < ·) := by
  rw [naturalLoops_eq_filterMap, List.pairwise_map, List.pairwise_filterMap]
  refine g.nodes.ordered_keys.imp fun {h₁ h₂} hlt info₁ heq1 info₂ heq2 => ?_
  have hheader {h : BlockId} {info : Loop}
      (heq : info ∈ if (g.loopAt h).latches.isEmpty then none else some (g.loopAt h)) : info.header = h := by
    split at heq
    · cases heq
    · cases heq
      rfl
  rw [hheader heq1, hheader heq2]
  exact Nat.compare_eq_lt.mp hlt

theorem reaches_latch_iff (hnode : g.isNode latch = true) :
    (latch ≠ h ∧ ReflTransGen (fun x y => g.isNode x = true ∧ x ∈ g.succs y ∧ y ≠ h) latch x) ↔
      x ≠ h ∧ ReflTransGen (fun x y => y ∈ g.succs x ∧ y ≠ h) x latch := by
  constructor
  · rintro ⟨hne, hr⟩
    induction hr with
    | refl => exact ⟨hne, .refl⟩
    | tail _ hxy ih => exact ⟨hxy.2.2, .head ⟨hxy.2.1, ih.1⟩ ih.2⟩
  · rintro ⟨hne, hr⟩
    induction hr using ReflTransGen.head_induction_on with
    | refl => exact ⟨hne, .refl⟩
    | @head x y hxy hr ih =>
        have hy : g.isNode y = true := by
          rcases hr.cases_head with rfl | ⟨z, hyz, -⟩
          · exact hnode
          · exact isNode_of_mem_succs hyz.1
        obtain ⟨hlatch, hr⟩ := ih hxy.2
        exact ⟨hlatch, hr.tail ⟨hy, hxy.1, hne⟩⟩

theorem mem_body_iff_path (he : g.isNode g.entry = true) (hinfo : info ∈ g.naturalLoops) :
    x ∈ info.body ↔ x = info.header ∨ ∃ latch ∈ info.latches, ∃ path,
      IsPath (fun x y => y ∈ g.succs x) x latch path ∧ info.header ∉ path := by
  have hlatch {latch : BlockId} (hl : latch ∈ info.latches) : g.isNode latch = true :=
    isNode_of_mem_succs (latch_cuts he hinfo hl).2
  rw [mem_body_iff he hinfo]
  constructor
  · rintro ⟨-, rfl | ⟨latch, hl, hr⟩⟩
    · exact .inl rfl
    · exact .inr ⟨latch, hl, exists_isPath_avoiding_iff.mpr ((reaches_latch_iff (hlatch hl)).mp hr)⟩
  · rintro (rfl | ⟨latch, hl, hpath⟩)
    · exact ⟨(mem_naturalLoops.mp hinfo).1, .inl rfl⟩
    · have hr := exists_isPath_avoiding_iff.mp hpath
      refine ⟨?_, .inr ⟨latch, hl, (reaches_latch_iff (hlatch hl)).mpr hr⟩⟩
      rcases hr.2.cases_head with rfl | ⟨y, hxy, -⟩
      · exact hlatch hl
      · exact isNode_of_mem_succs hxy.1

/-- Loops are found where edges lead back to a dominating node, each with its latches, and with what
reaches these without passing the header as its body. The header dominates the body, and the body is
entered through it only. -/
theorem naturalLoops_exact (g : FlowGraph) (he : g.isNode g.entry = true) :
    (g.naturalLoops.map (·.header)).Pairwise (· < ·) ∧
      (∀ h, (∃ info ∈ g.naturalLoops, info.header = h) ↔ ∃ b, g.LeadsBack h b) ∧
      ∀ info ∈ g.naturalLoops,
        (∀ b, b ∈ info.latches ↔ g.LeadsBack info.header b) ∧
        (∀ x, x ∈ info.body ↔ x = info.header ∨ ∃ latch ∈ info.latches, ∃ path,
          IsPath (fun x y => y ∈ g.succs x) x latch path ∧ info.header ∉ path) ∧
        (∀ x ∈ info.body, ∀ path, g.PathTo x path → info.header ∈ path) ∧
        ∀ y, y ∉ info.body → ∀ x ∈ g.succs y, x ∈ info.body → x = info.header := by
  refine ⟨g.pairwise_header, fun h => exists_header_iff he, fun info hinfo => ⟨fun b => ?_, fun x => ?_, ?_, ?_⟩⟩
  · rw [← (mem_naturalLoops.mp hinfo).2.2]
    exact mem_latches_iff he
  · exact mem_body_iff_path he hinfo
  · exact fun x hx => cuts_iff.mp (cuts_of_mem_body he hinfo hx)
  · intro y hy x hyx hx
    by_contra hne
    exact hy (pred_mem_body he hinfo hx hne hyx)

/-- An edge back to a header that an extra edge can leave, with an unreachable node before it. -/
def withDeadEntry : FlowGraph :=
  .ofNodes 0 [(0, ⟨[1], []⟩), (1, ⟨[2], [3]⟩), (2, ⟨[1, 2], [4]⟩), (3, ⟨[1], []⟩), (4, ⟨[], []⟩), (5, ⟨[2], []⟩)]

/-- The unreachable node belongs to the loop whose latch it leads to. -/
theorem naturalLoops_withDeadEntry :
    ∃ info ∈ withDeadEntry.naturalLoops, info.header = 1 ∧ 5 ∈ info.body ∧ withDeadEntry.LeadsBack 1 3 := by
  obtain ⟨-, -, hloops⟩ := naturalLoops_exact withDeadEntry (by decide +kernel)
  have hfound : ∃ info ∈ withDeadEntry.naturalLoops, info.header = 1 ∧ 5 ∈ info.body ∧ 3 ∈ info.latches := by
    decide +kernel
  obtain ⟨info, hinfo, hheader, hbody, hlatch⟩ := hfound
  exact ⟨info, hinfo, hheader, hbody, hheader ▸ ((hloops info hinfo).1 3).mp hlatch⟩

/-! ## Loops inside loops -/

/-- All edges are normal ones, and every node is reachable. -/
structure Plain (g : FlowGraph) : Prop where
  extra : ∀ (b : BlockId) (n : FlowNode), g.nodes[b]? = some n → n.extra = []
  reachable : ∀ b, g.isNode b = true → ∃ path, g.PathTo b path

section

variable (hg : g.Plain)

include hg

theorem Plain.mem_succs (h : y ∈ g.allSuccs x) : y ∈ g.succs x := by
  unfold allSuccs at h
  unfold succs
  split at h
  · rename_i n hn
    rw [hg.extra x n hn, List.append_nil] at h
    exact (List.mem_filter.mp h).1
  · cases h

theorem Plain.reaches (hx : g.isNode x = true) : ReflTransGen (fun x y => y ∈ g.succs x) g.entry x :=
  ReflTransGen.mono (fun _ _ => hg.mem_succs) _ _ (exists_pathTo_iff.mp (hg.reachable x hx))

theorem Plain.isNode_entry (hx : g.isNode x = true) : g.isNode g.entry = true := by
  rcases (hg.reaches hx).cases_head with heq | ⟨y, hy, -⟩
  · exact heq ▸ hx
  · exact isNode_of_mem_succs hy

theorem Plain.header_eq (h₂ : info₂ ∈ g.naturalLoops)
    (hcut : g.Cuts info₁.header info₂.header) (hin : info₁.header ∈ info₂.body) : info₁.header = info₂.header := by
  have hnode2 := (mem_naturalLoops.mp h₂).1
  have hcut' := cuts_of_mem_body (hg.isNode_entry hnode2) h₂ hin
  exact hcut.antisymm (exists_pathTo_iff.mp (hg.reachable _ hnode2)) hcut'

theorem Plain.header_mem_body (h₁ : info₁ ∈ g.naturalLoops) (h₂ : info₂ ∈ g.naturalLoops)
    (hcut : g.Cuts info₁.header info₂.header) (hx₁ : x ∈ info₁.body) (hx₂ : x ∈ info₂.body) :
    info₂.header ∈ info₁.body := by
  have he := hg.isNode_entry (mem_naturalLoops.mp h₁).1
  by_cases hin : info₁.header ∈ info₂.body
  · exact hg.header_eq h₂ hcut hin ▸ FlowGraph.header_mem_body h₁
  -- back from the shared node to the dominated header, the other header is not met
  have hr := header_reaches he h₂ (hg.reaches ((mem_body_iff he h₂).mp hx₂).1) hx₂
  generalize info₂.header = u at hr
  induction hr using ReflTransGen.head_induction_on with
  | refl => exact hx₁
  | head huv _ ih => exact pred_mem_body he h₁ ih (fun heq => hin (heq ▸ huv.2)) huv.1

theorem Plain.body_subset (h₁ : info₁ ∈ g.naturalLoops) (h₂ : info₂ ∈ g.naturalLoops)
    (hin : info₂.header ∈ info₁.body) : info₂.body ⊆ info₁.body := by
  have he := hg.isNode_entry (mem_naturalLoops.mp h₁).1
  have hcut := cuts_of_mem_body he h₁ hin
  by_cases heq : info₁.header = info₂.header
  · rw [← (mem_naturalLoops.mp h₁).2.2, ← (mem_naturalLoops.mp h₂).2.2, heq]
    exact List.Subset.refl _
  have hout : info₁.header ∉ info₂.body := fun h => heq (hg.header_eq h₂ hcut h)
  intro y hy
  by_cases hne : y = info₂.header
  · exact hne ▸ hin
  obtain ⟨latch, hl, -, hr⟩ := path_of_mem_body he h₂ hy hne
  have hlatch : latch ∈ info₁.body := pred_mem_body he h₁ hin (Ne.symm heq) (latch_cuts he h₂ hl).2
  suffices y ∈ info₁.body ∧ y ∈ info₂.body from this.1
  clear hy hne
  induction hr with
  | refl => exact ⟨hlatch, latch_mem_body he h₂ hl⟩
  | tail _ huv ih => exact ⟨pred_mem_body he h₁ ih.1 (fun heq => hout (heq ▸ ih.2)) huv.1, huv.2.1⟩

end

/-- Loops are apart or one lies in the other, and the one that holds the other's header is the outer
one. -/
theorem naturalLoops_nest (g : FlowGraph) (hg : g.Plain) (info₁ info₂ : Loop) (h₁ : info₁ ∈ g.naturalLoops)
    (h₂ : info₂ ∈ g.naturalLoops) :
    (info₁.body.Disjoint info₂.body ∨ info₁.body ⊆ info₂.body ∨ info₂.body ⊆ info₁.body) ∧
      (info₂.header ∈ info₁.body → info₂.body ⊆ info₁.body) := by
  have he := hg.isNode_entry (mem_naturalLoops.mp h₁).1
  refine ⟨?_, hg.body_subset h₁ h₂⟩
  by_cases hdisjoint : info₁.body.Disjoint info₂.body
  · exact .inl hdisjoint
  obtain ⟨x, hx₁, hx₂⟩ : ∃ x ∈ info₁.body, x ∈ info₂.body := by
    simpa [List.Disjoint] using hdisjoint
  have hx := exists_pathTo_iff.mp (hg.reachable x ((mem_body_iff he h₁).mp hx₁).1)
  rcases (cuts_of_mem_body he h₁ hx₁).linear hx (cuts_of_mem_body he h₂ hx₂) with hcut | hcut
  · exact .inr (.inr (hg.body_subset h₁ h₂ (hg.header_mem_body h₁ h₂ hcut hx₁ hx₂)))
  · exact .inr (.inl (hg.body_subset h₂ h₁ (hg.header_mem_body h₂ h₁ hcut hx₂ hx₁)))

/-- A loop in a loop, and behind them a cycle with two ways in. -/
def nested : FlowGraph :=
  .ofNodes 0 [(0, ⟨[1], []⟩), (1, ⟨[2, 5], []⟩), (2, ⟨[3], []⟩), (3, ⟨[2, 4], []⟩), (4, ⟨[1], []⟩),
    (5, ⟨[6, 7], []⟩), (6, ⟨[7], []⟩), (7, ⟨[6], []⟩)]

theorem naturalLoops_nest_nested :
    ∃ outer ∈ nested.naturalLoops, ∃ inner ∈ nested.naturalLoops, outer.header = 1 ∧ inner.header = 2 ∧
      inner.body ⊆ outer.body := by
  have hplain : nested.Plain := by
    refine ⟨fun b n hn => ?_, fun b hb => ?_⟩
    · have hall : ∀ p ∈ nested.nodes.toList, p.2.extra = [] := by decide +kernel
      exact hall (b, n) (Std.TreeMap.mem_toList_iff_getElem?_eq_some.mpr hn)
    · have hall : ∀ b ∈ nested.ids, b ∈ nested.reversePostorder := by decide +kernel
      exact (mem_reversePostorder_iff (by decide +kernel)).mp (hall b (mem_ids.mpr hb))
  have hfound : ∃ outer ∈ nested.naturalLoops, ∃ inner ∈ nested.naturalLoops, outer.header = 1 ∧
      inner.header = 2 ∧ inner.header ∈ outer.body := by
    decide +kernel
  obtain ⟨outer, houter, inner, hinner, h₁, h₂, hin⟩ := hfound
  exact ⟨outer, houter, inner, hinner, h₁, h₂, (naturalLoops_nest nested hplain outer inner houter hinner).2 hin⟩

end JvmLift.FlowGraph

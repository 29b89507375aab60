import JvmLift.Proofs.Structure.Method
import JvmLift.Proofs.Walk.Stages

/-!
# Searches come to an end

Folding, passing over code and searching for what a block reaches are loops that run until nothing is left to do. Here
each is one step that is repeated without a bound, and it settles at what is computed with one.
-/
namespace JvmLift

open List

open Relation (ReflTransGen)

/-- A step is repeated until there is none. -/
inductive Settles {α : Type} (step : α → Option α) : α → α → Prop where
  | done {a} (h : step a = none) : Settles step a a
  | more {a b c} (h : step a = some b) (hr : Settles step b c) : Settles step a c

section

variable {α : Type} {step : α → Option α} {a b : α}

theorem Settles.keeps {P : α → Prop} (hstep : ∀ a b, step a = some b → P a → P b) (h : Settles step a b)
    (ha : P a) : P b := by
  induction h with
  | done _ => exact ha
  | more h _ ih => exact ih (hstep _ _ h ha)

end

/-! ## Folding -/

variable {n : Nat}

namespace Fold

def step? (kept : List BlockId) (blocks : List Block) : Option (List Block) :=
  (candidate? blocks kept).map fun (owner, gone, exit) => absorb owner gone exit blocks

theorem length_absorb_lt {blocks b} (owner : BlockId) (exit : Exit) (hb : b ∈ blocks) :
    (absorb owner b.id exit blocks).length < blocks.length := by
  have hlt : ((blocks.map (·.id)).filter (· ≠ b.id)).length < (blocks.map (·.id)).length :=
    length_filter_lt_length_iff_exists.mpr ⟨b.id, mem_map_of_mem hb, by simp⟩
  have hids : (absorb owner b.id exit blocks).map (·.id) = _ := map_id_absorb owner b.id
  rwa [← hids, length_map, length_map] at hlt

theorem settles_run {kept blocks} (hn : blocks.length ≤ n) : Settles (step? kept) blocks (run kept n blocks).1 := by
  induction n generalizing blocks with
  | zero =>
      obtain rfl := length_eq_zero_iff.mp (Nat.le_zero.mp hn)
      exact .done rfl
  | succ n ih =>
      unfold run
      split
      · rename_i hc
        exact .done (by rw [step?, hc]; rfl)
      · rename_i owner gone exit hc
        obtain ⟨b1, b2, habs, rfl, rfl⟩ := candidate?_some hc
        have hlt := length_absorb_lt b1.id exit habs.gone
        exact .more (by rw [step?, hc]; rfl) (ih (by omega))

end Fold

namespace Layout

open Walk (skipPast? skipsFrom)

variable {l : Layout} {b : BlockId}

/-! ## Skipped code -/

theorem settles_passSkips (hn : skipsFrom l b ≤ n) : Settles (skipPast? l) b (l.passSkips n b) := by
  induction n generalizing b with
  | zero =>
      refine .done (Option.eq_none_iff_forall_ne_some.mpr fun past hp => ?_)
      have := Walk.skipsFrom_past hp
      omega
  | succ n ih =>
      unfold passSkips
      split
      · rename_i stop hstop
        split
        · rename_i hlt
          have hp : skipPast? l b = some stop := by simp [skipPast?, hstop, hlt]
          have := Walk.skipsFrom_past hp
          exact .more hp (ih (by omega))
        · rename_i hle
          exact .done (by simpa [skipPast?, hstop] using hle)
      · rename_i hnone
        exact .done (by simp [skipPast?, hnone])

/-! ## Jumps -/

/-- One jump is passed over, if the block only jumps elsewhere and nothing starts there. -/
def jumpStep? (l : Layout) (done : List Nat) (bounds : List BlockId) :
    List BlockId × BlockId → Option (List BlockId × BlockId)
  | (seen, b) =>
      if seen.contains b || bounds.contains b || (l.loop? b).isSome || l.labels.contains b ||
          (l.pendingTry done b).isSome then none
      else (l.jumpTarget? b).map (b :: seen, ·)

theorem isBlock_of_jumpTarget? {t} (h : l.jumpTarget? b = some t) : l.isBlock b = true := by
  unfold jumpTarget? at h
  unfold isBlock
  split at h <;> simp_all

theorem countP_unseen_jump {seen t} (h : l.jumpTarget? b = some t)
    (hseen : ¬ seen.contains b = true) : l.blocks.countP (fun c => !(b :: seen).contains c.id) + 1 ≤
      l.blocks.countP (fun c => !seen.contains c.id) := by
  obtain ⟨c, hc, rfl⟩ := isBlock_iff.mp (isBlock_of_jumpTarget? h)
  rw [contains_iff_mem] at hseen
  exact Walk.countP_open_lt (subset_cons_self _ _) hc hseen mem_cons_self

variable {bounds : List BlockId}

theorem settles_passJumps {done seen} (hn : l.blocks.countP (fun c => !seen.contains c.id) ≤ n) :
    ∃ seen', Settles (l.jumpStep? done bounds) (seen, b) (seen', l.passJumps done bounds n seen b) := by
  induction n generalizing seen b with
  | zero =>
      refine ⟨seen, .done ?_⟩
      simp only [jumpStep?]
      split
      · rfl
      · rename_i hstay
        cases ht : l.jumpTarget? b with
        | none => rfl
        | some t =>
            simp only [Bool.or_eq_true, not_or] at hstay
            have := countP_unseen_jump ht hstay.1.1.1.1
            omega
  | succ n ih =>
      unfold passJumps
      split
      · rename_i hstay
        exact ⟨seen, .done (if_pos hstay)⟩
      · rename_i hstay
        split
        · rename_i t ht
          have hseen := hstay
          simp only [Bool.or_eq_true, not_or] at hseen
          have := countP_unseen_jump ht hseen.1.1.1.1
          obtain ⟨seen', hr⟩ : ∃ seen', Settles (l.jumpStep? done bounds) (b :: seen, t)
              (seen', l.passJumps done bounds n (b :: seen) t) := ih (by omega)
          exact ⟨seen', .more (by rw [jumpStep?, if_neg hstay, ht]; rfl) hr⟩
        · rename_i ht
          exact ⟨seen, .done (by rw [jumpStep?, if_neg hstay, ht]; rfl)⟩

/-! ## Reach -/

def Linked (l : Layout) : Prop :=
  ∀ x y, y ∈ l.succs x → l.isBlock x = true ∧ l.isBlock y = true

theorem mem_of_getElem?_insertMany {nodes : Std.TreeMap BlockId FlowNode}
    {added : List (BlockId × FlowNode)} {n} (h : (nodes.insertMany added)[b]? = some n) :
    nodes[b]? = some n ∨ (b, n) ∈ added := by
  induction added generalizing nodes with
  | nil => exact .inl h
  | cons node added ih =>
      rw [Std.TreeMap.insertMany_cons] at h
      rcases ih h with h | h
      · rw [Std.TreeMap.getElem?_insert] at h
        split at h
        · rename_i heq
          cases h
          cases Std.LawfulEqCmp.eq_of_compare heq
          exact .inr mem_cons_self
        · exact .inl h
      · exact .inr (mem_cons_of_mem _ h)

theorem linked_ofGraph (cf : ControlFlow) (blocks : List Block) (p : Protection) (labels : List BlockId) :
    Linked (ofGraph blocks p (Structure.graphOf cf blocks) labels) := by
  intro x y h
  simp only [succs, FlowGraph.succs, Structure.graphOf, FlowGraph.ofNodes,
    Std.TreeMap.ofList_eq_insertMany_empty] at h
  split at h
  · rename_i n hn
    have hmem := (mem_of_getElem?_insertMany hn).resolve_left (by simp)
    obtain ⟨block, hblock, heq⟩ := mem_map.mp hmem
    cases heq
    refine ⟨isBlock_iff.mpr ⟨block, hblock, rfl⟩, ?_⟩
    have hy := (mem_filter.mp h).2
    rwa [isBlock, block?, Block.isSome_find?]
  · cases h

def Onward (l : Layout) (bounds : List BlockId) (x y : BlockId) : Prop := x ∉ bounds ∧ y ∈ l.succs x

theorem Linked.mem_reach (hl : l.Linked) {start} :
    b ∈ l.reach bounds start ↔ ReflTransGen (l.Onward bounds) start b := by
  by_cases hs : l.isBlock start = true
  · exact mem_reach_of_isBlock (fun x y hy => (hl x y hy).2) hs
  · -- From anything but a block control goes nowhere.
    constructor
    · intro h
      obtain ⟨a, ha, hr⟩ := reaches_of_mem_expand (by simp) h
      obtain rfl : start = a := by simpa using ha
      refine ReflTransGen.mono (fun x y hxy => ?_) _ _ hr
      split at hxy
      · cases hxy
      · rename_i hx
        exact ⟨by simpa using hx, hxy⟩
    · intro h
      rcases h.cases_head with rfl | ⟨y, hy, -⟩
      · exact mem_expand_of_mem (by simp)
      · exact absurd (hl start y hy.2).1 hs

/-- One block is taken from the work and seen; unless it is a bound, its successors become work. -/
def searchStep? (l : Layout) (bounds : List BlockId) :
    List BlockId × List BlockId → Option (List BlockId × List BlockId)
  | ([], _) => none
  | (b :: work, seen) =>
      if seen.contains b then some (work, seen)
      else if bounds.contains b then some (work, b :: seen)
      else some ((l.succs b).reverse ++ work, b :: seen)

structure Searches (l : Layout) (bounds : List BlockId) (start : BlockId)
    (found : List BlockId × List BlockId) : Prop where
  begun : start ∈ found.1 ∨ start ∈ found.2
  reached : ∀ x, x ∈ found.1 ∨ x ∈ found.2 → ReflTransGen (l.Onward bounds) start x
  closed : ∀ x ∈ found.2, ∀ y, l.Onward bounds x y → y ∈ found.1 ∨ y ∈ found.2

theorem Searches.step {start found found'}
    (hstep : l.searchStep? bounds found = some found') (h : l.Searches bounds start found) :
    l.Searches bounds start found' := by
  obtain ⟨_ | ⟨b, work⟩, seen⟩ := found
  · cases hstep
  · obtain ⟨hbegun, hreached, hclosed⟩ := h
    simp only [searchStep?] at hstep
    split at hstep
    · constructor <;> grind
    · split at hstep
      · constructor
        · grind
        · grind
        · intro x hx y hxy
          have := hxy.1
          grind
      · rename_i hbound
        rw [contains_iff_mem] at hbound
        constructor
        · grind
        · intro x hx
          have hb : ReflTransGen (l.Onward bounds) start b := hreached b (.inl mem_cons_self)
          by_cases hs : x ∈ l.succs b
          · exact hb.tail ⟨hbound, hs⟩
          · grind
        · intro x hx y hxy
          have := hxy.2
          grind

theorem exists_settles_search (bounds nodes : List BlockId) (hnodes : ∀ x, ∀ y ∈ l.succs x, y ∈ nodes)
    (work seen : List BlockId) (hwork : ∀ x ∈ work, x ∈ nodes) :
    ∃ seen', Settles (l.searchStep? bounds) (work, seen) ([], seen') := by
  -- Either a block is seen that was not, or what is seen stays and there is less work.
  induction hk : nodes.countP (fun x => !seen.contains x) using Nat.strong_induction_on
    generalizing work seen with
  | _ k ih =>
      induction work with
      | nil => exact ⟨seen, .done rfl⟩
      | cons b work ihwork =>
          obtain ⟨hb, hwork⟩ := forall_mem_cons.mp hwork
          by_cases hseen : seen.contains b = true
          · obtain ⟨seen', hr⟩ := ihwork hwork
            exact ⟨seen', .more (if_pos hseen) hr⟩
          · have hless : nodes.countP (fun x => !(b :: seen).contains x) < k :=
              hk ▸ Walk.countP_open_lt (subset_cons_self b seen) hb (by simpa using hseen)
                mem_cons_self
            by_cases hbound : bounds.contains b = true
            · obtain ⟨seen', hr⟩ := ih _ hless work (b :: seen) hwork rfl
              exact ⟨seen', .more (by rw [searchStep?, if_neg hseen, if_pos hbound]) hr⟩
            · have hmore : ∀ x ∈ (l.succs b).reverse ++ work, x ∈ nodes := by
                intro x hx
                rcases mem_append.mp hx with hx | hx
                · exact hnodes b x (mem_reverse.mp hx)
                · exact hwork x hx
              obtain ⟨seen', hr⟩ := ih _ hless _ (b :: seen) hmore rfl
              exact ⟨seen', .more (by rw [searchStep?, if_neg hseen, if_neg hbound]) hr⟩

theorem Linked.settles_reach (hl : l.Linked) (bounds : List BlockId) (start : BlockId) :
    ∃ seen, Settles (l.searchStep? bounds) ([start], []) ([], seen) ∧ ∀ b, b ∈ seen ↔ b ∈ l.reach bounds start := by
  have hnodes : ∀ x, ∀ y ∈ l.succs x, y ∈ start :: l.blocks.map (·.id) := by
    intro x y hy
    obtain ⟨c, hc, rfl⟩ := isBlock_iff.mp (hl x y hy).2
    exact mem_cons_of_mem _ (mem_map_of_mem hc)
  obtain ⟨seen, hsettles⟩ := exists_settles_search bounds _ hnodes [start] [] (by simp)
  have hend : l.Searches bounds start ([], seen) := by
    apply hsettles.keeps fun _ _ => Searches.step
    exact ⟨by simp, by simpa using ReflTransGen.refl, by simp⟩
  refine ⟨seen, hsettles, fun b => ?_⟩
  rw [hl.mem_reach]
  constructor
  · exact fun hb => hend.reached b (.inr hb)
  · intro hr
    induction hr with
    | refl => exact hend.begun.resolve_left not_mem_nil
    | tail _ hxy ih => exact (hend.closed _ ih _ hxy).resolve_left not_mem_nil

end Layout

end JvmLift

import JvmLift.Proofs.Tree.Relations
import Mathlib.Data.List.Flatten

/-!
# Lists of a body

A pass looks at every list of a body. What is nested in a list is done by then. The variables that stand in
a part of a list do not stand in it more often than in the body.
-/
namespace JvmLift.Tree

open List

/-! ## Nested nodes -/

theorem arms_sublist {arms a} (h : a ∈ arms) : (nodesList a.2).Sublist (nodesArms arms) := by
  induction h with
  | head => exact sublist_append_left _ _
  | tail _ _ ih => exact ih.trans (sublist_append_right _ _)

theorem clauses_sublist {cs c} (h : c ∈ cs) : (nodesList c.2).Sublist (nodesClauses cs) := by
  induction h with
  | head => exact sublist_append_left _ _
  | tail _ _ ih => exact ih.trans (sublist_append_right _ _)

theorem children_sublist {l} : (t : Tree) → l ∈ t.children → (nodesList l).Sublist t.nodes
  | .ifElse _ t b, h => by
      rcases mem_cons.mp h with rfl | h
      · exact .cons _ (sublist_append_left _ _)
      · rw [Option.mem_toList] at h
        cases h
        exact .cons _ (sublist_append_right _ _)
  | .whileLoop _ b, h | .doWhile b _, h | .forEach _ _ b, h | .synchronized _ b, h => by
      obtain rfl := mem_singleton.mp h
      exact .cons _ (.refl _)
  | .forLoop _ _ _ b, h => by
      obtain rfl := mem_singleton.mp h
      exact .cons _ (sublist_append_right _ _)
  | .switch _ _ arms, h => by
      obtain ⟨a, ha, rfl⟩ := mem_map.mp h
      exact .cons _ (arms_sublist ha)
  | .tryCatch _ b cs c, h => by
      simp only [children, cons_append, mem_cons, mem_append, mem_map, Option.mem_toList] at h
      rcases h with rfl | ⟨c, hc, rfl⟩ | h
      · exact .cons _ ((sublist_append_left _ _).trans (sublist_append_left _ _))
      · refine .cons _ (.trans ?_ ((sublist_append_right _ _).trans (sublist_append_left _ _)))
        exact clauses_sublist hc
      · cases h
        exact .cons _ (sublist_append_right _ _)
  | .labeled _ t, h => .cons _ (children_sublist t h)

theorem mem_sublist {t : Tree} {ts} (h : t ∈ ts) : t.nodes.Sublist (nodesList ts) := by
  induction h with
  | head => exact sublist_append_left _ _
  | tail _ _ ih => exact ih.trans (sublist_append_right _ _)

theorem infix_sublist {us ts} (h : us <:+: ts) : (nodesList us).Sublist (nodesList ts) := by
  obtain ⟨front, back, rfl⟩ := h
  rw [nodesList_append, nodesList_append]
  exact (sublist_append_right _ _).trans (sublist_append_left _ _)

/-- Where a pass meets statements: in a list of a body, or there once it has been through what is nested. -/
inductive Position (f : List Tree → List Tree) (us : List Tree) : List Tree → Prop
  | here {l : List Tree} (h : us <:+: l) : Position f us l
  | mapped {l : List Tree} (h : us <:+: mapListsIn f l) : Position f us l
  | nested {t : Tree} {l l' : List Tree} (ht : t ∈ l) (hl : l' ∈ t.children) (h : Position f us l') : Position f us l

/-! ## Counts -/

structure Fewer (old new : List Tree) : Prop where
  reads : ∀ k, (readKeys new).count k ≤ (readKeys old).count k
  writes : ∀ k, (writtenKeys new).count k ≤ (writtenKeys old).count k

namespace Fewer

variable {ns ms ks : List Tree}

theorem of_sublist (h : ms.Sublist ns) : Fewer ns ms where
  reads := (h.flatMap _).count_le
  writes := (h.flatMap _).count_le

theorem trans (h : Fewer ns ms) (h' : Fewer ms ks) : Fewer ns ks :=
  ⟨fun k => Nat.le_trans (h'.reads k) (h.reads k), fun k => Nat.le_trans (h'.writes k) (h.writes k)⟩

theorem within {N} (h : Fewer ns ms) (hin : Within N ns) : Within N ms := by
  refine append_subset.mpr ⟨fun k hk => hin.reads ?_, fun k hk => hin.writes ?_⟩
  · exact count_pos_iff.mp (Nat.lt_of_lt_of_le (count_pos_iff.mpr hk) (h.reads k))
  · exact count_pos_iff.mp (Nat.lt_of_lt_of_le (count_pos_iff.mpr hk) (h.writes k))

theorem compositional : Compositional (fun _ => True) Fewer where
  nil := of_sublist (.refl _)
  node he hw _ := by
    constructor
    · simp [ownReads_eq, he]
    · simp [hw]
  append h h' := by
    constructor <;> intro k
    · simpa [count_append] using Nat.add_le_add (h.reads k) (h'.reads k)
    · simpa [count_append] using Nat.add_le_add (h.writes k) (h'.writes k)
  trans := trans
  split _ := ⟨trivial, trivial⟩
  keep _ _ := trivial

theorem of_position {f : List Tree → List Tree} (hf : ∀ us, Fewer (nodesList us) (nodesList (f us)))
    {us ts} (h : Position f us ts) : Fewer (nodesList ts) (nodesList us) := by
  induction h with
  | here h => exact of_sublist (infix_sublist h)
  | mapped h => exact (compositional.mapListsIn (fun us _ => hf us) _ trivial).trans (of_sublist (infix_sublist h))
  | nested ht hl _ ih => exact (of_sublist ((children_sublist _ hl).trans (mem_sublist ht))).trans ih

end Fewer

/-! ## Passes that may be stopped -/

/-- The lists that a pass meets in a body, as they are when it has been through what is nested in them. -/
inductive Meets (f : List Tree → List Tree) : List Tree → List Tree → Prop
  | here (l : List Tree) : Meets f l (mapListsIn f l)
  | nested {t : Tree} {l l' us : List Tree} (ht : t ∈ l) (hl : l' ∈ t.children) (h : Meets f l' us) : Meets f l us

def Restricts (f? : List Tree → Option (List Tree)) (f : List Tree → List Tree) : Prop :=
  ∀ us vs, f? us = some vs → vs = f us

def Runs (f : List Tree → List Tree) (f? : List Tree → Option (List Tree)) (l : List Tree) : Prop :=
  ∀ us, Meets f l us → f? us = some (f us)

section

variable {f : List Tree → List Tree} {f? : List Tree → Option (List Tree)}

theorem runs_iff {l} : Runs f f? l ↔
    (∀ t ∈ l, ∀ l' ∈ t.children, Runs f f? l') ∧ f? (mapListsIn f l) = some (f (mapListsIn f l)) := by
  constructor
  · intro h
    exact ⟨fun t ht l' hl us hus => h us (.nested ht hl hus), h _ (.here l)⟩
  · rintro ⟨hnested, hhere⟩ us hus
    cases hus with
    | here => exact hhere
    | nested ht hl hus => exact hnested _ ht _ hl us hus

theorem bind_bind_iff (hf : Restricts f? f) {β ts}
    (h : ∀ us, mapListsIn? f? ts = some us ↔ (∀ t ∈ ts, ∀ l ∈ t.children, Runs f f? l) ∧ us = mapListsIn f ts)
    {k : List Tree → Option β} {z : β} :
    (do k (← f? (← mapListsIn? f? ts))) = some z ↔ Runs f f? ts ∧ k (f (mapListsIn f ts)) = some z := by
  have hsome {us vs} : f? us = some vs ↔ f? us = some (f us) ∧ vs = f us := by grind [Restricts]
  rw [bind_iff h, bind_iff fun _ => hsome, ← and_assoc, runs_iff]

attribute [local simp] mapLists? mapBlock? mapListsIn? mapArms? mapClauses? mapLists mapBlock mapListsIn mapArms
  mapClauses children or_imp forall_and

mutual

theorem mapLists?_eq_some (hf : Restricts f? f) : (t t' : Tree) →
    (t.mapLists? f? = some t' ↔ (∀ l ∈ t.children, Runs f f? l) ∧ t' = t.mapLists f)
  | .ifElse e t b, _ => by
      rw [mapLists?, bind_bind_iff hf (mapListsIn?_eq_some hf t), bind_iff (mapBlock?_eq_some hf b)]
      simp [and_assoc, eq_comm]
  | .whileLoop _ b, _ | .doWhile b _, _ | .forLoop _ _ _ b, _ | .forEach _ _ b, _ | .synchronized _ b, _ => by
      rw [mapLists?, bind_bind_iff hf (mapListsIn?_eq_some hf b)]
      simp [eq_comm]
  | .switch k e arms, _ => by
      rw [mapLists?, bind_iff (mapArms?_eq_some hf arms)]
      simp [eq_comm]
  | .tryCatch s b cs c, _ => by
      rw [mapLists?, bind_bind_iff hf (mapListsIn?_eq_some hf b), bind_iff (mapClauses?_eq_some hf cs),
        bind_iff (mapBlock?_eq_some hf c)]
      simp [and_assoc, eq_comm]
  | .labeled name b, _ => by
      rw [mapLists?, bind_iff (mapLists?_eq_some hf b)]
      simp [eq_comm]
  | .simple _, _ | .declare .., _ | .breakTo _, _ | .continueTo _, _ | .label _, _ | .goto _, _ | .comment _, _ => by
      simp [eq_comm]

theorem mapBlock?_eq_some (hf : Restricts f? f) : (b b' : Option (List Tree)) →
    (mapBlock? f? b = some b' ↔ (∀ l ∈ b, Runs f f? l) ∧ b' = mapBlock f b)
  | none, _ => by simp [eq_comm]
  | some ts, _ => by
      rw [mapBlock?, bind_bind_iff hf (mapListsIn?_eq_some hf ts)]
      simp [eq_comm]

theorem mapListsIn?_eq_some (hf : Restricts f? f) : (ts ts' : List Tree) →
    (mapListsIn? f? ts = some ts' ↔ (∀ t ∈ ts, ∀ l ∈ t.children, Runs f f? l) ∧ ts' = mapListsIn f ts)
  | [], _ => by simp [eq_comm]
  | t :: ts, _ => by
      rw [mapListsIn?, bind_iff (mapLists?_eq_some hf t), bind_iff (mapListsIn?_eq_some hf ts)]
      simp [and_assoc, eq_comm]

theorem mapArms?_eq_some (hf : Restricts f? f) : (arms arms' : List (Arm × List Tree)) →
    (mapArms? f? arms = some arms' ↔ (∀ l ∈ arms.map (·.2), Runs f f? l) ∧ arms' = mapArms f arms)
  | [], _ => by simp [eq_comm]
  | (arm, b) :: rest, _ => by
      rw [mapArms?, bind_bind_iff hf (mapListsIn?_eq_some hf b), bind_iff (mapArms?_eq_some hf rest)]
      simp [and_assoc, eq_comm]

theorem mapClauses?_eq_some (hf : Restricts f? f) : (cs cs' : List (Clause × List Tree)) →
    (mapClauses? f? cs = some cs' ↔ (∀ l ∈ cs.map (·.2), Runs f f? l) ∧ cs' = mapClauses f cs)
  | [], _ => by simp [eq_comm]
  | (c, b) :: rest, _ => by
      rw [mapClauses?, bind_bind_iff hf (mapListsIn?_eq_some hf b), bind_iff (mapClauses?_eq_some hf rest)]
      simp [and_assoc, eq_comm]

end

theorem eachList?_eq_some (hf : Restricts f? f) (ts us : List Tree) :
    eachList? f? ts = some us ↔ Runs f f? ts ∧ us = eachList f ts := by
  have hbind := bind_bind_iff hf (mapListsIn?_eq_some hf ts) (k := some) (z := us)
  simpa [eachList?, eachList, eq_comm] using hbind

end

end JvmLift.Tree

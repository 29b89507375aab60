import JvmLift.Proofs.Meaning.Effects
import JvmLift.Proofs.Structure.Layout
import JvmLift.Proofs.Walk.Stages

/-!
# Where values go in a switch

There is one arm for each block that the keys and the default lead to, and a value whose block has an arm goes there.
A value that leads to the follow goes past all arms only if the default does so too.
-/
namespace JvmLift

open List

/-! ## Keys -/

variable {v : Int32}

theorem lookup_eq_some_iff_mem {α} {cases : List (Int32 × α)} (hkeys : (cases.map (·.1)).Nodup) {t} :
    cases.lookup v = some t ↔ (v, t) ∈ cases := by
  induction cases with
  | nil => simp
  | cons c rest ih =>
      obtain ⟨k, u⟩ := c
      simp only [map_cons, nodup_cons, mem_map, not_exists, not_and] at hkeys
      rw [lookup_cons]
      by_cases hv : v = k
      · subst hv
        have hnot (t : α) : (v, t) ∉ rest := fun hm => hkeys.1 _ hm rfl
        simp [hnot, eq_comm]
      · simp [beq_eq_false_iff_ne.mpr hv, hv, ih hkeys.2]

namespace Walk

variable {cases : List (Int32 × BlockId)}

theorem mem_keysOf {t} : v ∈ keysOf cases t ↔ (v, t) ∈ cases := by
  unfold keysOf
  simp [mem_mergeSort]

/-! ## Arms -/

/-- The arm at a place takes a value: it lists the value, or it is a default arm and no arm lists it. -/
def Selects (arms : List (Arm × List Tree)) (v : Int32) (i : Nat) : Prop :=
  ∃ a, arms[i]? = some a ∧ (CaseLabel.int v ∈ a.1.labels ∨
    a.1.isDefault = true ∧ ∀ b ∈ arms, CaseLabel.int v ∉ b.1.labels)

/-- Bodies of arms are written one after the other, each from a block of its own. -/
inductive WritesArms (walk : RegionWalk) (scopes : List Enclosing) (follow : Option BlockId) :
    List BlockId → State → List (Arm × List Tree) → State → Prop where
  | nil {s} : WritesArms walk scopes follow [] s [] s
  | cons {entry rest s arm body reached s1 arms s'}
      (hw : (walk scopes entry (rest.head?.or follow) false []).run s = ((body, reached), s1))
      (hr : WritesArms walk scopes follow rest s1 arms s') :
      WritesArms walk scopes follow (entry :: rest) s ((arm, body) :: arms) s'

theorem writesArms_switchArms (walk : RegionWalk) (scopes : List Enclosing) (default : BlockId)
    (cases : List (Int32 × BlockId)) (follow : Option BlockId) (entries : List BlockId) (s : State) :
    WritesArms walk scopes follow entries s ((switchArms walk scopes default cases follow entries).run s).1
      ((switchArms walk scopes default cases follow entries).run s).2 := by
  induction entries generalizing s with
  | nil => exact .nil
  | cons entry rest ih => exact .cons rfl (ih _)

theorem heads_switchArms (walk : RegionWalk) (scopes : List Enclosing) (default : BlockId)
    (cases : List (Int32 × BlockId)) (follow : Option BlockId) (entries : List BlockId) (s : State) :
    ((switchArms walk scopes default cases follow entries).run s).1.map (fun a => (a.1.labels, a.1.isDefault)) =
      entries.map fun e => ((keysOf cases e).map CaseLabel.int, e == default) := by
  induction entries generalizing s with
  | nil => rfl
  | cons entry rest ih => exact congrArg (_ :: ·) (ih _)

variable {default : BlockId} {cases : List (Int32 × BlockId)} {follow : Option BlockId}

theorem selects_iff {arms} {entries : List BlockId} (hkeys : (cases.map (·.1)).Nodup)
    (hheads : arms.map (fun a => (a.1.labels, a.1.isDefault)) =
      entries.map fun e => ((keysOf cases e).map CaseLabel.int, e == default))
    {i} : Selects arms v i ↔ ∃ e, entries[i]? = some e ∧ (cases.lookup v = some e ∨
      e = default ∧ ∀ e' ∈ entries, cases.lookup v ≠ some e') := by
  have hlists (e : BlockId) : CaseLabel.int v ∈ (keysOf cases e).map CaseLabel.int ↔ cases.lookup v = some e := by
    simp [mem_keysOf, lookup_eq_some_iff_mem hkeys]
  have hnone : (∀ b ∈ arms, CaseLabel.int v ∉ b.1.labels) ↔ ∀ e ∈ entries, cases.lookup v ≠ some e := by
    have hlabels : arms.map (fun a => a.1.labels) = entries.map fun e => (keysOf cases e).map CaseLabel.int := by
      simpa [Function.comp_def] using congrArg (List.map Prod.fst) hheads
    calc (∀ b ∈ arms, CaseLabel.int v ∉ b.1.labels)
      _ ↔ ∀ labels ∈ arms.map (fun a => a.1.labels), CaseLabel.int v ∉ labels := by rw [forall_mem_map]
      _ ↔ ∀ e ∈ entries, cases.lookup v ≠ some e := by
        rw [hlabels, forall_mem_map]
        simp only [hlists]
  have hi := congrArg (fun xs => xs[i]?) hheads
  simp only [getElem?_map] at hi
  unfold Selects
  rw [hnone]
  cases he : entries[i]? with
  | none =>
      have ha : arms[i]? = none := by simpa [he] using hi
      simp [ha]
  | some e =>
      rw [he] at hi
      obtain ⟨a, ha, hhead⟩ := Option.map_eq_some_iff.mp hi
      obtain ⟨hl, hd⟩ := Prod.mk.injEq .. ▸ hhead
      simp only [ha, Option.some.injEq, exists_eq_left', hl, hd, hlists, beq_iff_eq]

theorem mem_entriesOf {e} : e ∈ entriesOf default cases follow ↔
    ((∃ k, (k, e) ∈ cases) ∨ e = default) ∧ some e ≠ follow := by
  unfold entriesOf
  simp [mem_sortedSet]

theorem nodup_entriesOf : (entriesOf default cases follow).Nodup := (nodup_sortedSet _).filter _

theorem caseTarget_mem_entriesOf (hkeys : (cases.map (·.1)).Nodup) :
    caseTarget default cases v ∈ entriesOf default cases follow ↔ some (caseTarget default cases v) ≠ follow := by
  rw [mem_entriesOf, and_iff_right_iff_imp]
  intro _
  unfold caseTarget
  cases hv : cases.lookup v with
  | none => exact .inr rfl
  | some t => exact .inl ⟨v, (lookup_eq_some_iff_mem hkeys).mp hv⟩

section

variable {arms : List (Arm × List Tree)} (hkeys : (cases.map (·.1)).Nodup)
  (hheads : arms.map (fun a => (a.1.labels, a.1.isDefault)) =
    (entriesOf default cases follow).map fun e => ((keysOf cases e).map CaseLabel.int, e == default)) {v : Int32}

include hkeys hheads

theorem selects_caseTarget (hv : some (caseTarget default cases v) ≠ follow) :
    ∃ i, (entriesOf default cases follow)[i]? = some (caseTarget default cases v) ∧ ∀ j, Selects arms v j ↔ j = i := by
  have hmem : caseTarget default cases v ∈ entriesOf default cases follow :=
    (caseTarget_mem_entriesOf hkeys).mpr hv
  obtain ⟨i, hi⟩ := mem_iff_getElem?.mp hmem
  refine ⟨i, hi, fun j => ?_⟩
  have hplace : (entriesOf default cases follow)[j]? = some (caseTarget default cases v) ↔ j = i := by
    constructor
    · intro hj
      obtain ⟨hlt, -⟩ := List.getElem?_eq_some_iff.mp hi
      exact ((getElem?_inj hlt nodup_entriesOf).mp (hi.trans hj.symm)).symm
    · rintro rfl
      exact hi
  rw [selects_iff hkeys hheads, ← hplace]
  unfold caseTarget at hmem ⊢
  cases hl : cases.lookup v with
  | none =>
      simp only [reduceCtorEq, false_or, ne_eq, not_false_eq_true, implies_true, and_true, Option.getD_none,
        exists_eq_right]
  | some t =>
      rw [hl] at hmem
      constructor
      · rintro ⟨e, he, ht | ⟨-, hno⟩⟩
        · exact he.trans ht.symm
        · exact absurd rfl (hno t hmem)
      · exact fun ht => ⟨t, ht, .inl rfl⟩

theorem selects_none_iff (hv : some (caseTarget default cases v) = follow) :
    (∀ i, ¬Selects arms v i) ↔ some default = follow := by
  have hno : ∀ e ∈ entriesOf default cases follow, cases.lookup v ≠ some e := by
    intro e he hl
    have htarget : caseTarget default cases v = e := by simp [caseTarget, hl]
    exact (mem_entriesOf.mp he).2 (htarget ▸ hv)
  have hselects (i : Nat) : Selects arms v i ↔ (entriesOf default cases follow)[i]? = some default := by
    rw [selects_iff hkeys hheads]
    constructor
    · rintro ⟨e, he, hl | ⟨rfl, -⟩⟩
      · exact absurd hl (hno e (List.mem_of_getElem? he))
      · exact he
    · exact fun hd => ⟨default, hd, .inr ⟨rfl, hno⟩⟩
  simp only [hselects, ← not_exists, ← mem_iff_getElem?, mem_entriesOf, or_true, true_and, not_not]

end

/-- A switch is written with one arm for each block that is not its follow, from that block. With distinct
keys, a value whose block is not the follow goes to the arm of its block, and to no other. A value that
leads to the follow goes past all arms exactly if the follow is the default. -/
theorem switch_dispatches (l : Layout) (walk : RegionWalk) (scopes : List Enclosing) (key : Expr)
    (default : BlockId) {cases : List (Int32 × BlockId)} (hkeys : (cases.map (·.1)).Nodup)
    (stop : Option BlockId) (out : List Tree) (s : State) :
    let follow := followOf l scopes stop default cases
    ∃ entries arms s',
      (switch l walk scopes key default cases stop out).run s =
        ((follow, out ++ [s'.wrap (s.labelCount + 1) (.switch .int key arms)]), s') ∧
      WritesArms walk (⟨none, follow, s.labelCount + 1⟩ :: scopes) follow entries s.takeLabel arms s' ∧
      ∀ v, (some (caseTarget default cases v) ≠ follow → ∃ i,
          entries[i]? = some (caseTarget default cases v) ∧ ∀ j, Selects arms v j ↔ j = i) ∧
        (some (caseTarget default cases v) = follow →
          ((∀ i, ¬Selects arms v i) ↔ some default = follow)) := by
  intro follow
  let inner : List Enclosing := ⟨none, follow, s.labelCount + 1⟩ :: scopes
  let entries := entriesOf default cases follow
  have hheads := heads_switchArms walk inner default cases follow entries s.takeLabel
  refine ⟨entries, _, _, rfl, writesArms_switchArms walk inner default cases follow entries s.takeLabel, ?_⟩
  exact fun v => ⟨selects_caseTarget hkeys hheads, selects_none_iff hkeys hheads⟩

/-- Two keys lead to blocks of their own, and the default to where both go on. -/
def casesMeet : Layout :=
  let blocks : List Block :=
    [⟨0, [], .switch (.localVar (.ofSlot 1 none .int)) 30 [(2, 20), (1, 10)], []⟩, ⟨10, [], .goto 30, []⟩,
      ⟨20, [], .fall 30, []⟩, ⟨30, [⟨.leave none, 30, 31, none⟩], .leave, []⟩]
  .ofGraph blocks ⟨[], [], []⟩ (Structure.graphOf ⟨0, [], []⟩ blocks) []

theorem switch_dispatches_casesMeet : ([(2, 20), (1, 10)].map (fun c : Int32 × BlockId => c.1)).Nodup ∧
      ∃ entries arms s',
        WritesArms (blocksFrom casesMeet 9) [⟨none, some 30, 1⟩] (some 30) entries State.initial.takeLabel arms s' ∧
        (∃ i, entries[i]? = some 10 ∧ ∀ j, Selects arms 1 j ↔ j = i) ∧ ∀ i, ¬Selects arms 7 i := by
  have hkeys : ([(2, 20), (1, 10)].map (fun c : Int32 × BlockId => c.1)).Nodup := by decide
  have hfollow : followOf casesMeet [] none 30 [(2, 20), (1, 10)] = some 30 := by decide +kernel
  obtain ⟨entries, arms, s', -, hw, hv⟩ := switch_dispatches casesMeet (blocksFrom casesMeet 9) []
    (.localVar (.ofSlot 1 none .int)) 30 hkeys none [] .initial
  rw [hfollow] at hw hv
  exact ⟨hkeys, entries, arms, s', hw, (hv 1).1 (by decide), ((hv 7).2 (by decide)).mpr rfl⟩

/-- A key leads past the switch, and the default does not. -/
def keyLeaves : List Block :=
  [⟨0, [], .switch (.localVar (.ofSlot 0 none .int)) 10 [(1, 20)], []⟩,
    ⟨10, [⟨.expr (.intLit 10), 10, 11, none⟩], .goto 20, []⟩, ⟨20, [⟨.leave none, 20, 21, none⟩], .leave, []⟩]

def armHeads : Tree → List Arm
  | .switch .int _ arms => arms.map (·.1)
  | _ => []

/-- The only arm is the default one, so it takes the value that leads past the switch. -/
theorem default_takes_keyLeaves : some (caseTarget 10 [(1, 20)] 1) = followOf (.ofGraph keyLeaves ⟨[], [], []⟩
      (Structure.graphOf ⟨0, [], []⟩ keyLeaves) []) [] none 10 [(1, 20)] ∧
    ∃ key arms, Tree.switch .int key arms ∈ (structureMethod ⟨0, [], []⟩ keyLeaves ⟨[], [], []⟩ false).stmts ∧
      Selects arms 1 0 := by
  refine ⟨by decide +kernel, ?_⟩
  have hany : (structureMethod ⟨0, [], []⟩ keyLeaves ⟨[], [], []⟩ false).stmts.any
      (armHeads · == [⟨[], true, false⟩]) = true := by decide +kernel
  obtain ⟨t, ht, hbeq⟩ := List.any_eq_true.mp hany
  have hheads : armHeads t = [⟨[], true, false⟩] := beq_iff_eq.mp hbeq
  clear hbeq
  unfold armHeads at hheads
  split at hheads
  · rename_i key arms
    obtain ⟨a, rfl, ha⟩ := List.map_eq_singleton_iff.mp hheads
    exact ⟨key, [a], ht, a, rfl, Or.inr (by simp [ha])⟩
  · cases hheads

end Walk

end JvmLift

import JvmLift.Proofs.Sugar.Passes
import JvmLift.Proofs.Sugar.Thinning

/-!
# Reads keep their writes

A variable that is written in a body and is still read in the forms of the source language is still written there. The
pass that finds switches over strings is left out.
-/
namespace JvmLift.Sugar

open List

open JvmLift.Tree (nodesList nodesBlock nodesPart nodesArms nodesClauses readKeys writtenKeys OneName Within within_append)

variable {u : VarUses} {N : List VarKey}

section

attribute [local simp] Tree.nodes nodesList nodesBlock nodesPart Stmt.operands Stmt.written? Located.withStmt inPlaceOf
  count_append

/-! ## Loops -/

theorem thins_iteratorWalk (hN : OneName N) (w : IteratorWalk u)
    (hin : Within N (nodesList [.simple w.init, w.looped])) :
    Thins u (nodesList [.simple w.init, w.looped]) w.recovered.nodes := by
  refine .of_lost [w.iterator.key, w.iterator.key] [w.iterator.key] (fun k => ?_) (fun k => ?_) (fun k hk => ?_)
  · have := w.count_reads hN k hin
    omega
  · simp only [← count_pos_iff, w.count_writes k]
    omega
  · rw [mem_singleton.mp hk]
    simpa [VarUses.reads] using Nat.le_of_eq w.reads_iterator

theorem thins_arrayWalk (hN : OneName N) (w : ArrayWalk u) {t2 t3} (hprep : w.Prepares t2 t3)
    (hin : Within N (nodesList [.simple w.keep, t2, t3, w.looped])) :
    Thins u (nodesList [.simple w.keep, t2, t3, w.looped]) w.recovered.nodes := by
  refine .of_lost [w.array.key, w.array.key, w.length.key, w.index.key, w.index.key]
    [w.array.key, w.length.key, w.index.key, w.index.key] (fun k => ?_) (fun k => ?_) (fun k hk => ?_)
  · have := w.count_reads hN k hprep hin
    omega
  · simp only [← count_pos_iff, w.count_writes hN k hprep hin]
    omega
  · have hra : u.readKeys.count w.array.key = 2 := w.reads_array
    have hrn : u.readKeys.count w.length.key = 1 := w.reads_length
    have hrk : u.readKeys.count w.index.key = 2 := w.reads_index
    simp only [mem_cons, not_mem_nil, or_false, or_self] at hk
    rcases hk with rfl | rfl | rfl <;> simp [count_cons] <;> omega

theorem thins_recoverForEach (hN : OneName N) (ts : List Tree) (h : Within N (nodesList ts)) :
    Thins u (nodesList ts) (nodesList (recoverForEach u ts)) :=
  related_recoverForEach (Thins.compositional N) (thins_iteratorWalk hN) (thins_arrayWalk hN) ts h

theorem thins_countingLoop {init looped t} (h : countingLoop? init looped = some t) :
    Thins u (init.nodes ++ looped.nodes) t.nodes := by
  obtain ⟨name, test, front, start, update, rfl, rfl, -, rfl⟩ := countingLoop?_some h
  refine .of_subset (fun k => ?_) (fun k hk => ?_) (fun k hk => ?_)
  · simp [Tree.nodesList_append]
    omega
  · simp [Tree.nodesList_append] at hk ⊢
    grind
  · simp [Tree.nodesList_append] at hk ⊢
    grind

theorem thins_countingFrom (t : Tree) (ts : List Tree) :
    Thins u (nodesList (t :: ts)) (nodesList (countingFrom t ts)) := by
  induction ts generalizing t with
  | nil => exact .refl _
  | cons next rest ih =>
      rw [countingFrom]
      split
      · rename_i t' ht'
        simp only [nodesList]
        rw [← append_assoc]
        exact ((thins_countingLoop ht').append (.refl _)).trans (ih t')
      · exact (Thins.refl _).append (ih next)

theorem thins_recoverFor (ts : List Tree) : Thins u (nodesList ts) (nodesList (recoverFor ts)) := by
  cases ts with
  | nil => exact .refl _
  | cons t rest => exact thins_countingFrom t rest

/-! ## Switches over enum constants -/

theorem nodesArms_map (g : Arm × List Tree → Arm) (arms : List (Arm × List Tree)) :
    nodesArms (arms.map fun a => (g a, a.2)) = nodesArms arms := by
  induction arms with
  | nil => rfl
  | cons a rest ih => simp only [map_cons, nodesArms, ih]

theorem vars_ordinalLookup {key l} (h : ordinalLookup? key = some l) : l.value.vars.Sublist key.vars := by
  unfold ordinalLookup? at h
  split at h
  · obtain ⟨p, -, rfl⟩ := Option.map_eq_some_iff.mp h
    simp
  · cases h

theorem thins_enumSwitch (r : Resolver) (t : Tree) : Thins u t.nodes (enumSwitch r t).nodes := by
  unfold enumSwitch
  split
  · rename_i name key arms hswitch
    split
    · rename_i l hl
      split
      · rw [eq_relabeled hswitch]
        refine .of_subset (fun k => ?_) (fun k hk => ?_) (fun k hk => ?_)
        · simpa [nodesArms_map] using ((vars_ordinalLookup hl).map (·.key)).count_le k
        · simpa [nodesArms_map] using hk
        · simpa [nodesArms_map] using hk
      · exact .refl _
    · exact .refl _
  · exact .refl _

theorem thins_recoverEnums (r : Resolver) (ts : List Tree) (h : Within N (nodesList ts)) :
    Thins u (nodesList ts) (nodesList (recoverEnums r ts)) :=
  (Thins.compositional N).map (fun t _ => thins_enumSwitch r t) ts h

/-! ## The last return -/

theorem thins_dropLastReturn (returnType : ErasedType) (ts : List Tree) :
    Thins u (nodesList ts) (nodesList (dropLastReturn returnType ts)) := by
  unfold dropLastReturn
  split
  · rename_i hlast
    obtain ⟨front, rfl⟩ := getLast?_eq_some_iff.mp hlast
    refine .of_eq ?_ ?_ <;> simp [Tree.nodesList_append]
  · exact .refl _

end

/-! ## All passes -/

/-- No read is added, and what was written and is still read is still written. -/
structure Supplies (N : List VarKey) (old new : List Tree) : Prop where
  within : Within N (nodesList old) → Within N (nodesList new)
  reads : Within N (nodesList old) → readKeys (nodesList new) ⊆ readKeys (nodesList old)
  kept : Within N (nodesList old) → ∀ k ∈ writtenKeys (nodesList old),
    k ∈ writtenKeys (nodesList new) ∨ k ∉ readKeys (nodesList new)

namespace Supplies

variable {ts us vs : List Tree}

theorem of_thins (h : Within N (nodesList ts) → Thins (.ofStmts ts) (nodesList ts) (nodesList us)) :
    Supplies N ts us := by
  refine ⟨fun hN => (h hN).within hN, fun hN k hk => ?_, fun hN k hk => ((h hN).kept k hk).imp_right fun hle => ?_⟩
  · have hle := (h hN).reads k
    exact count_pos_iff.mp (Nat.lt_of_lt_of_le (count_pos_iff.mpr hk) hle)
  · simp only [Tree.ofStmts_eq] at hle
    exact count_eq_zero.mp (by omega)

theorem refl (ts : List Tree) : Supplies N ts ts := of_thins fun _ => .refl _

theorem trans (h : Supplies N ts us) (h' : Supplies N us vs) : Supplies N ts vs := by
  refine ⟨fun hN => h'.within (h.within hN), fun hN => ?_, fun hN k hk => ?_⟩
  · exact List.Subset.trans (h'.reads (h.within hN)) (h.reads hN)
  · rcases h.kept hN k hk with hu | hu
    · exact h'.kept (h.within hN) k hu
    · exact Or.inr fun hv => hu (h'.reads (h.within hN) hv)

theorem eachList {f} (hf : ∀ us, Within N (nodesList us) → Thins (.ofStmts ts) (nodesList us) (nodesList (f us))) :
    Supplies N ts (Tree.eachList f ts) := of_thins ((Thins.compositional N).eachList hf ts)

end Supplies

section

variable (ctx : SugarContext) (o : SugarOptions)

theorem supplies_valuesAndLoops (hN : OneName N) (ts : List Tree) : Supplies N ts (valuesAndLoops ctx o ts) := by
  have hternaries (ts : List Tree) : Supplies N ts (ternaries ts) :=
    (Supplies.eachList (thins_collapseTernaries hN)).trans (.eachList (thins_inlineStackVars hN))
  refine .trans ?_ (when_related .refl o.forLoops (fun _ => .eachList fun us _ => thins_recoverFor us) _)
  refine .trans ?_ (when_related .refl o.forEach (fun _ => .eachList (thins_recoverForEach hN)) _)
  refine .trans ?_ (.eachList (thins_collapseReturns hN))
  refine .trans ?_ (.eachList (thins_retypeBooleans ctx.returnType))
  exact when_related .refl o.ternary hternaries ts

theorem supplies_sugar (hN : OneName N) (ho : o.stringSwitch = false) (body : MethodBody) :
    Supplies N body.stmts (sugar ctx o body).1.stmts := by
  rw [sugar_stmts, undeclared, ho]
  refine .trans ?_ (.of_thins fun _ => thins_dropLastReturn ctx.returnType _)
  refine .trans ?_ (.of_thins fun _ => related_declareIn (Thins.compositional N) (fun _ => .of_eq rfl rfl) _ _ 0 _)
  refine .trans (supplies_valuesAndLoops ctx o hN _) ?_
  exact when_related .refl o.enumSwitch (fun _ => .eachList (thins_recoverEnums ctx.resolver)) _

/-- A variable that was written and is still read is still written. -/
theorem written_of_read_sugar (ho : o.stringSwitch = false) (body : MethodBody)
    (hnames : OneName (readKeys (nodesList body.stmts) ++ writtenKeys (nodesList body.stmts))) (k : VarKey)
    (hwritten : k ∈ writtenKeys (nodesList body.stmts)) (hread : k ∈ readKeys (nodesList (sugar ctx o body).1.stmts)) :
    k ∈ writtenKeys (nodesList (sugar ctx o body).1.stmts) := by
  exact ((supplies_sugar ctx o hnames ho body).kept (List.Subset.refl _) k hwritten).resolve_right fun hn => hn hread

end

def sumOfElements : MethodBody where
  stmts := loopOver [.simple addElement] ++ [.simple ⟨.leave (some (.localVar sumVar)), 17, 19, none⟩]
  approximate := false
  warnings := []

theorem written_of_read_sugar_sum :
    let ctx : SugarContext := ⟨⟨none, []⟩, .int, 1⟩
    let found := nodesList (sugar ctx ⟨true, true, true, true, false⟩ sumOfElements).1.stmts
    OneName (readKeys (nodesList sumOfElements.stmts) ++ writtenKeys (nodesList sumOfElements.stmts)) ∧
      sumVar.key ∈ writtenKeys (nodesList sumOfElements.stmts) ∧ sumVar.key ∈ readKeys found ∧
      sumVar.key ∈ writtenKeys found := by
  intro ctx found
  have hnames : OneName (readKeys (nodesList sumOfElements.stmts) ++ writtenKeys (nodesList sumOfElements.stmts)) := by
    unfold OneName
    decide +kernel
  have hwritten : sumVar.key ∈ writtenKeys (nodesList sumOfElements.stmts) := by decide +kernel
  have hread : sumVar.key ∈ readKeys found := by decide +kernel
  exact ⟨hnames, hwritten, hread, written_of_read_sugar ctx _ rfl sumOfElements hnames _ hwritten hread⟩

end JvmLift.Sugar

import JvmLift.Proofs.Meaning.Source

/-!
# Rewriting that keeps the meaning

A rewriting of lists of statements is applied to a list and to all lists inside. If it keeps what every list
does, under every bound, it may be applied everywhere.
-/
namespace JvmLift.Source

universe u

variable {σ ν : Type u} {A : Actions σ ν} {n : Nat}

/-- Two lists of statements do the same: they execute the same statements in the same order, and either
end in the same way or go on forever. -/
structure SameRuns (A : Actions σ ν) (ts us : List Tree) (x : σ) : Prop where
  executes : ∀ i s, Executes A ts x i s ↔ Executes A us x i s
  ends : ∀ r, Ends A ts x r ↔ Ends A us x r
  diverges : Diverges A ts x ↔ Diverges A us x

theorem SameRuns.of_eq {ts us x} (h : ∀ n, execList A n ts x = execList A n us x) : SameRuns A ts us x := by
  constructor <;> simp only [Executes, Ends, Diverges, h, implies_true]

/-! ## Lists inside -/

section

/-- Under a bound, `f` keeps what every list does. -/
abbrev Keeps (A : Actions σ ν) (n : Nat) (f : List Tree → List Tree) : Prop :=
  ∀ ts x, execList A n (f ts) x = execList A n ts x

variable {f : List Tree → List Tree}

theorem map_fst_mapArms (arms : List (Arm × List Tree)) : (Tree.mapArms f arms).map (·.1) = arms.map (·.1) := by
  induction arms with
  | nil => rfl
  | cons arm rest ih => simp [Tree.mapArms, ih]

mutual

theorem exec_mapLists (hf : Keeps A n f) (own : List String) (t : Tree) (x : σ) :
    exec A n own (t.mapLists f) x = exec A n own t x := by
  cases t with
  | ifElse e t b => simp only [Tree.mapLists, exec, hf, execList_mapListsIn hf t, execBlock_mapBlock hf b]
  | whileLoop e b | doWhile b e | forLoop init e update b | forEach v e b =>
      simp only [Tree.mapLists, exec, hf, execList_mapListsIn hf b]
  | switch k e arms => simp only [Tree.mapLists, exec, map_fst_mapArms, execArms_mapArms hf arms]
  | tryCatch shape b clauses cleanup =>
      simp only [Tree.mapLists, exec, hf, execList_mapListsIn hf b, execBlock_mapBlock hf cleanup]
      rw [funext fun v => funext fun y => execClauses_mapClauses hf clauses v y]
  | synchronized e b => simp only [Tree.mapLists, exec, hf, execList_mapListsIn hf b]
  | labeled name b => simp only [Tree.mapLists, exec, exec_mapLists hf _ b]
  | _ => rfl

theorem execBlock_mapBlock (hf : Keeps A n f) (b : Option (List Tree)) :
    execBlock A n (Tree.mapBlock f b) = execBlock A n b := by
  funext x
  cases b with
  | none => rfl
  | some ts => simp only [Tree.mapBlock, execBlock, hf, execList_mapListsIn hf ts]

theorem execList_mapListsIn (hf : Keeps A n f) (ts : List Tree) (x : σ) :
    execList A n (Tree.mapListsIn f ts) x = execList A n ts x := by
  cases ts with
  | nil => rfl
  | cons t ts =>
      simp only [Tree.mapListsIn, execList, exec_mapLists hf [] t]
      rw [funext fun y => execList_mapListsIn hf ts y]

theorem execArms_mapArms (hf : Keeps A n f) (arms : List (Arm × List Tree)) (skip : Nat) (x : σ) :
    execArms A n (Tree.mapArms f arms) skip x = execArms A n arms skip x := by
  cases arms with
  | nil => rfl
  | cons arm rest =>
      obtain ⟨arm, b⟩ := arm
      cases skip with
      | succ skip => exact execArms_mapArms hf rest skip x
      | zero => simp only [Tree.mapArms, execArms, hf, execList_mapListsIn hf b, execArms_mapArms hf rest]

theorem execClauses_mapClauses (hf : Keeps A n f) (clauses : List (Clause × List Tree)) (v : ν) (x : σ) :
    execClauses A n (Tree.mapClauses f clauses) v x = execClauses A n clauses v x := by
  cases clauses with
  | nil => rfl
  | cons clause rest =>
      obtain ⟨clause, b⟩ := clause
      simp only [Tree.mapClauses, execClauses, hf, execList_mapListsIn hf b, execClauses_mapClauses hf rest]

end

theorem execList_eachList (hf : Keeps A n f) (ts : List Tree) (x : σ) :
    execList A n (Tree.eachList f ts) x = execList A n ts x := by
  rw [Tree.eachList, hf, execList_mapListsIn hf]

end

end JvmLift.Source

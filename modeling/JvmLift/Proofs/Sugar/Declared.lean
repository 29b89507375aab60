import JvmLift.Proofs.Sugar.Passes
import JvmLift.Proofs.Sugar.Settled

/-!
# Locals of desugared bodies

No pass in front of the one that declares variables declares any, so every local of a desugared body is in scope where
it is mentioned, as long as every placement settles.
-/
namespace JvmLift

open List

namespace Sugar

/-! ## Passes declare nothing -/

section

variable {t u : Tree} {ts us : List Tree}

theorem plainList_iff : PlainList ts ↔ ∀ t ∈ ts, Plain t := by
  induction ts with
  | nil => simp [PlainList]
  | cons t ts ih => simp only [PlainList, ih, forall_mem_cons]

theorem plainArms_iff {arms} : PlainArms arms ↔ ∀ arm ∈ arms, PlainList arm.2 := by
  induction arms with
  | nil => simp [PlainArms]
  | cons arm arms ih => simp only [PlainArms, ih, forall_mem_cons]

theorem PlainList.sublist (h : PlainList ts) (hsub : us.Sublist ts) : PlainList us :=
  plainList_iff.mpr fun t ht => plainList_iff.mp h t (hsub.subset ht)

theorem SimplePart.mapOwn (f : Expr → Expr) (h : SimplePart (some t)) : SimplePart (some (t.mapOwn f)) := by
  match t with
  | .simple _ => trivial

theorem Plain.mapOwn (f : Expr → Expr) : (t : Tree) → Plain t → Plain (t.mapOwn f)
  | .forLoop none _ none _, h => h
  | .forLoop (some _) _ none _, ⟨hi, hu, hb⟩ => ⟨hi.mapOwn f, hu, hb⟩
  | .forLoop none _ (some _) _, ⟨hi, hu, hb⟩ => ⟨hi, hu.mapOwn f, hb⟩
  | .forLoop (some _) _ (some _) _, ⟨hi, hu, hb⟩ => ⟨hi.mapOwn f, hu.mapOwn f, hb⟩
  | .labeled _ t, h => Plain.mapOwn f t h
  | .ifElse .., h | .whileLoop .., h | .doWhile .., h | .forEach .., h | .switch .., h | .synchronized .., h
  | .simple _, h | .tryCatch .., h | .breakTo _, h | .continueTo _, h | .label _, h | .goto _, h
  | .comment _, h => h

theorem Recasts.plain (h : Recasts t u) (hp : Plain t) : Plain u := by
  cases h with
  | forEach test v e h => exact PlainList.sublist hp h
  | forLoop test init update h => exact ⟨trivial, trivial, PlainList.sublist hp h⟩
  | switch k k' e e' arms hf =>
      refine plainArms_iff.mpr fun arm harm => ?_
      obtain ⟨arm, hmem, rfl⟩ := mem_map.mp harm
      exact (hf arm).symm ▸ plainArms_iff.mp hp arm hmem

theorem Rewrites.plain (h : Rewrites t u) (hp : Plain t) : Plain u := by
  cases h with
  | refl => exact hp
  | simple => trivial
  | mapOwn t f => exact hp.mapOwn f t
  | lastOfTry shape front last s cleanup =>
      refine ⟨plainList_iff.mpr (forall_mem_append.mpr ⟨?_, ?_⟩), hp.2⟩
      · exact (forall_mem_append.mp (plainList_iff.mp hp.1)).1
      · exact forall_mem_singleton.mpr trivial
  | recast name h =>
      cases name with
      | none => exact h.plain hp
      | some name => exact h.plain hp

theorem Passes.plain (h : Passes ts us) (hp : PlainList ts) : PlainList us := by
  induction h with
  | nil => trivial
  | drop t h ih => exact ih hp.2
  | cons ht h ih => exact ⟨ht.plain hp.1, ih hp.2⟩
  | trans h h' ih ih' => exact ih' (ih hp)

end

section

variable {f : List Tree → List Tree}

mutual

theorem plain_mapLists (hf : ∀ ts, PlainList ts → PlainList (f ts)) : (t : Tree) → Plain t → Plain (t.mapLists f)
  | .ifElse _ t b, ⟨ht, hb⟩ => ⟨plain_eachList hf t ht, plain_mapBlock hf b hb⟩
  | .whileLoop _ b, h | .doWhile b _, h | .forEach _ _ b, h | .synchronized _ b, h => plain_eachList hf b h
  | .forLoop _ _ _ b, ⟨hi, hu, h⟩ => ⟨hi, hu, plain_eachList hf b h⟩
  | .switch _ _ arms, h => plain_mapArms hf arms h
  | .tryCatch _ b cs c, ⟨hb, hcs, hc⟩ =>
      ⟨plain_eachList hf b hb, plain_mapClauses hf cs hcs, plain_mapBlock hf c hc⟩
  | .labeled _ t, h => plain_mapLists hf t h
  | .simple _, h | .breakTo _, h | .continueTo _, h | .label _, h | .goto _, h | .comment _, h => h

theorem plain_mapBlock (hf : ∀ ts, PlainList ts → PlainList (f ts)) :
    (b : Option (List Tree)) → PlainBlock b → PlainBlock (Tree.mapBlock f b)
  | none, _ => trivial
  | some ts, h => plain_eachList hf ts h

theorem plain_mapListsIn (hf : ∀ ts, PlainList ts → PlainList (f ts)) :
    (ts : List Tree) → PlainList ts → PlainList (Tree.mapListsIn f ts)
  | [], _ => trivial
  | t :: ts, ⟨ht, hts⟩ => ⟨plain_mapLists hf t ht, plain_mapListsIn hf ts hts⟩

theorem plain_eachList (hf : ∀ ts, PlainList ts → PlainList (f ts)) (ts : List Tree) (h : PlainList ts) :
    PlainList (Tree.eachList f ts) :=
  hf _ (plain_mapListsIn hf ts h)

theorem plain_mapArms (hf : ∀ ts, PlainList ts → PlainList (f ts)) :
    (arms : List (Arm × List Tree)) → PlainArms arms → PlainArms (Tree.mapArms f arms)
  | [], _ => trivial
  | (_, b) :: rest, ⟨hb, hrest⟩ => ⟨plain_eachList hf b hb, plain_mapArms hf rest hrest⟩

theorem plain_mapClauses (hf : ∀ ts, PlainList ts → PlainList (f ts)) :
    (cs : List (Clause × List Tree)) → PlainClauses cs → PlainClauses (Tree.mapClauses f cs)
  | [], _ => trivial
  | (_, b) :: rest, ⟨hb, hrest⟩ => ⟨plain_eachList hf b hb, plain_mapClauses hf rest hrest⟩

end

end

theorem plain_undeclared (ctx : SugarContext) (o : SugarOptions) (ts : List Tree) (h : PlainList ts) :
    PlainList (undeclared ctx o ts) :=
  undeclared_related (R := fun ts us => PlainList ts → PlainList us) (fun _ => id) (fun h h' => h' ∘ h)
    (fun hf => plain_eachList fun ts => (hf ts).plain) ctx o ts h

/-! ## Method bodies -/

variable {slots : UInt16}

theorem inScope_declareAll_iff {ts} (hp : PlainList ts) :
    InScopeList slots [] [] (declareAll slots ts) ↔ settled slots ts = true := by
  refine (inScope_declareIn_iff 0 ts rfl hp (.start (List.Subset.refl _)) (.start (List.Subset.refl _))).trans ?_
  exact meets_start.trans (and_iff_right fun k _ _ hb => (not_mem_nil hb).elim)

theorem inScope_concat_leave {lo hi line} : {ts : List Tree} →
    {vis dec : List VarKey} → (InScopeList slots vis dec (ts ++ [.simple ⟨.leave none, lo, hi, line⟩]) ↔
      InScopeList slots vis dec ts)
  | [], _, _ => by simp [InScopeList, InScope, Sees, Tree.ownReads, Tree.ownNodes, Tree.ownExprs, Stmt.operands,
      Stmt.written?]
  | _ :: _, _, _ => and_congr_right fun _ => inScope_concat_leave

theorem inScope_dropLastReturn_iff {ts} (returnType : ErasedType) :
    InScopeList slots [] [] (dropLastReturn returnType ts) ↔ InScopeList slots [] [] ts := by
  unfold dropLastReturn
  split
  · rename_i hlast
    obtain ⟨front, rfl⟩ := getLast?_eq_some_iff.mp hlast
    rw [dropLast_concat, inScope_concat_leave]
  · rfl

end Sugar

open Sugar

/-- Whichever passes are run over a body that declares nothing, every local is declared once and in
scope exactly if each variable that is declared at a store settles: the store does not read it, and if
the store is in the head of a loop or behind a label then no other statement of that list mentions it. -/
theorem inScope_sugar_iff (ctx : SugarContext) (o : SugarOptions) (body : MethodBody) (hplain : PlainList body.stmts) :
    InScopeList ctx.paramSlots [] [] (sugar ctx o body).1.stmts ↔
      settled ctx.paramSlots (undeclared ctx o body.stmts) = true := by
  rw [sugar_stmts, inScope_dropLastReturn_iff]
  exact inScope_declareAll_iff (plain_undeclared ctx o body.stmts hplain)

/-- `i = 0; while (i < 10) { i++; }` and the statements behind it. -/
def countToTen (rest : List Tree) : List Tree :=
  let i := LocalVar.ofSlot 1 (some "i") .int
  .synthetic (.store i (.intLit 0)) ::
    .whileLoop (.compare .lt (.localVar i) (.intLit 10)) [.synthetic (.increment i 1)] :: rest

/-- Under a condition on a parameter, and with nothing behind it, the loop declares its variable. -/
theorem inScope_sugar_counting : InScopeList 1 [] [] (sugar ⟨⟨none, []⟩, .void, 1⟩ .all
      ⟨[.ifElse (.localVar (.ofSlot 0 (some "p") .boolean)) (countToTen []) none], false, []⟩).1.stmts :=
  (inScope_sugar_iff ⟨⟨none, []⟩, .void, 1⟩ .all
    ⟨[.ifElse (.localVar (.ofSlot 0 (some "p") .boolean)) (countToTen []) none], false, []⟩
    ⟨⟨⟨trivial, ⟨trivial, trivial⟩, trivial⟩, trivial⟩, trivial⟩).mpr (by decide +kernel)

/-- A return behind the loop reads the variable out of scope. -/
theorem not_inScope_sugar_counting : ¬ InScopeList 1 [] [] (sugar ⟨⟨none, []⟩, .int, 1⟩ .all
      ⟨countToTen [.synthetic (.leave (some (.localVar (.ofSlot 1 (some "i") .int))))], false, []⟩).1.stmts := by
  decide +kernel

end JvmLift

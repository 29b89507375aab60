import JvmLift.Proofs.Meaning.Rewriting
import JvmLift.Proofs.Sugar.Passes

/-!
# Counting loops mean what they are made of

The update moves from the end of the body into the head of a `for`. There it is executed too when the body is left by a
`continue`, so nothing inside may continue this loop, at any depth.
-/
namespace JvmLift.Source

open Sugar
open JvmLift.Tree (continuesIn)

universe u

variable {σ ν : Type u} {A : Actions σ ν} {n : Nat} {name : Option String} {nested : Bool} {own : List String}

/-! ## One loop -/

theorem continuesIn_append (ts us : List Tree) :
    continuesIn name nested (ts ++ us) = (continuesIn name nested ts || continuesIn name nested us) := by
  induction ts with
  | nil => simp [continuesIn]
  | cons t ts ih => simp [continuesIn, ih, Bool.or_assoc]

theorem resumes_execList {ts} (h : continuesIn name false ts = false) (x : σ) :
    (execList A n ts x).ending.resumes name.toList = false :=
  (passes_execList h x).not_resumes fun _ => Option.mem_toList.mp

variable {front : List Tree}

theorem take_execList_concat (update : Located) (h : ∀ x, (execList A n front x).ending.resumes own = false) (x : σ) :
    (execList A n (front ++ [.simple update]) x).take (·.resumes own) =
      ((execList A n front x).take (·.resumes own)).andThen (A.simple update) := by
  have hupdate : ∀ y, (execList A n [.simple update] y).take (·.resumes own) = A.simple update y := by
    intro y
    rw [execList_singleton, exec]
    unfold Actions.simple
    split <;> rfl
  rw [execList_append, Outcome.andThen_take (h x), Outcome.take_of_not (h x), funext hupdate]

theorem exec_forLoop {update : Located} (start : Located) (test : Expr)
    (h : continuesIn name false (front ++ [.simple update]) = false) (x : σ) :
    exec A n name.toList (.forLoop (some (.simple start)) test (some (.simple update)) front) x =
      (A.simple start x).andThen (exec A n name.toList (.whileLoop test (front ++ [.simple update]))) := by
  rw [continuesIn_append, Bool.or_eq_false_iff] at h
  simp only [exec, take_execList_concat update (resumes_execList h.1)]
  rfl

theorem exec_relabeled_forLoop {update} (start : Located) (test : Expr)
    (h : continuesIn name false (front ++ [.simple update]) = false) (x : σ) :
    exec A n [] (relabeled name (.forLoop (some (.simple start)) test (some (.simple update)) front)) x =
      (A.simple start x).andThen (exec A n [] (relabeled name (.whileLoop test (front ++ [.simple update])))) := by
  cases name with
  | none => exact exec_forLoop start test h x
  | some label =>
      -- The label moves in front of the first part, which does not leave it.
      have hstart : (A.simple start x).ending.breaks (some label) = false := by
        unfold Actions.simple
        split <;> rfl
      have hloop : exec A n [label] _ x = _ := exec_forLoop start test h x
      rw [relabeled, exec, hloop]
      exact Outcome.andThen_take hstart _

theorem exec_relabeled_of_threw {t x y v} (h : exec A n name.toList t x = ⟨[], y, .threw v⟩) :
    exec A n [] (relabeled name t) x = ⟨[], y, .threw v⟩ := by
  cases name with
  | none => exact h
  | some label =>
      have h : exec A n [label] t x = _ := h
      rw [relabeled, exec, h]
      rfl

/-! ## Lists of statements -/

theorem execList_countingLoop {init looped t} (h : countingLoop? init looped = some t) (x : σ) :
    execList A n [t] x = execList A n [init, looped] x := by
  obtain ⟨name, test, front, start, update, rfl, rfl, hno, rfl⟩ := countingLoop?_some h
  rw [execList_singleton, exec_relabeled_forLoop start test hno, execList,
    funext (execList_singleton _), exec]

theorem execList_countingFrom (t : Tree) (rest : List Tree) (x : σ) :
    execList A n (countingFrom t rest) x = execList A n (t :: rest) x := by
  fun_induction countingFrom t rest generalizing x with
  | case1 t => rfl
  | case2 t next rest u hu ih =>
      have happend : t :: next :: rest = [t, next] ++ rest := rfl
      rw [ih, happend, execList_append, ← execList_countingLoop hu, ← execList_append]
      rfl
  | case3 t next rest hu ih => rw [execList, execList, funext ih]

theorem execList_recoverFor (ts : List Tree) (x : σ) : execList A n (recoverFor ts) x = execList A n ts x := by
  cases ts with
  | nil => rfl
  | cons t rest => exact execList_countingFrom t rest x

end JvmLift.Source

namespace JvmLift.Sugar

open Source (Actions)

universe u

/-- A counting loop does what its first part and the loop it is made of do, and finding such loops in a
list, or in all lists, changes nothing of what is done. -/
theorem recoverFor_keeps_runs {σ ν : Type u} (A : Actions σ ν) (x : σ) :
    (∀ init looped t, countingLoop? init looped = some t → Source.SameRuns A [t] [init, looped] x) ∧
      (∀ ts, Source.SameRuns A (recoverFor ts) ts x) ∧
      ∀ ts, Source.SameRuns A (Tree.eachList recoverFor ts) ts x := by
  refine ⟨fun init looped t h => ?_, fun ts => ?_, fun ts => ?_⟩
  · exact .of_eq fun n => Source.execList_countingLoop h x
  · exact .of_eq fun n => Source.execList_recoverFor ts x
  · exact .of_eq fun n => Source.execList_eachList Source.execList_recoverFor ts x

/-- A state that counts: stores set it back, increments advance it, and tests hold below three. -/
def belowThree : Actions Nat Nat where
  run s x :=
    match s.stmt with
    | .store _ _ => (.onward, 0)
    | .increment _ _ => (.onward, x + 1)
    | _ => (.onward, x)
  declare _ _ x := (.ok (), x)
  holds _ x := (.ok (decide (x < 3)), x)
  value _ x := (.ok x, x)
  selects _ _ _ := false
  catches _ _ := false
  caught _ _ x := x
  lock _ x := (.ok (), x)
  unlock _ x := (.ok (), x)
  iterate _ x := (.ok x, x)
  next _ _ x := (.ok none, x)

def resetIndex : Located := ⟨.store (.ofSlot 1 none .int) (.intLit 0), 0, 2, none⟩

def advanceIndex : Located := ⟨.increment (.ofSlot 1 none .int) 1, 8, 11, none⟩

def indexBelowThree : Expr := .compare .lt (.localVar (.ofSlot 1 none .int)) (.intLit 3)

def breakingSwitch : Tree :=
  .switch .int (.localVar (.ofSlot 1 none .int)) [(⟨[], true, false⟩, [.breakTo none])]

def whileBelowThree : List Tree :=
  [.simple resetIndex, .labeled "outer" (.whileLoop indexBelowThree [breakingSwitch, .simple advanceIndex])]

def forBelowThree : List Tree :=
  [.labeled "outer" (.forLoop (some (.simple resetIndex)) indexBelowThree (some (.simple advanceIndex))
    [breakingSwitch])]

/-- Three rounds of a loop with a label. -/
theorem recoverFor_keeps_runs_belowThree : recoverFor whileBelowThree = forBelowThree ∧
      Source.Ends belowThree forBelowThree 7
        ⟨[resetIndex, advanceIndex, advanceIndex, advanceIndex], 3, .normal⟩ := by
  have hfor : recoverFor whileBelowThree = forBelowThree := rfl
  have hends : Source.Ends belowThree whileBelowThree 7
      ⟨[resetIndex, advanceIndex, advanceIndex, advanceIndex], 3, .normal⟩ := ⟨4, rfl, fun h => by cases h⟩
  exact ⟨hfor, hfor ▸ (((recoverFor_keeps_runs belowThree 7).2.1 whileBelowThree).ends _).mpr hends⟩

end JvmLift.Sugar

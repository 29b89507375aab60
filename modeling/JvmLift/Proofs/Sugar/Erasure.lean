import JvmLift.Proofs.Sugar.Writers

/-!
# Declarations change nothing else

Erasing declarations turns one with a value into a store of the value, with any byte range, and deletes the others.
Inserting declarations leaves the erasure as it is.
-/
namespace JvmLift

namespace Tree

mutual

/-- What is left of a statement once declarations are erased, if anything is. -/
inductive Erases : Tree → Option Tree → Prop
  | bare (v : LocalVar) (line : Option UInt16) : Erases (.declare v none line) none
  | init (v : LocalVar) (e : Expr) (line : Option UInt16) (start stop : Nat) :
      Erases (.declare v (some e) line) (some (.simple ⟨.store v e, start, stop, line⟩))
  | ifElse {e : Expr} {t t' : List Tree} {b b' : Option (List Tree)} (ht : ErasesList t t')
      (hb : ErasesBlock b b') : Erases (.ifElse e t b) (some (.ifElse e t' b'))
  | whileLoop {e : Expr} {b b' : List Tree} (hb : ErasesList b b') :
      Erases (.whileLoop e b) (some (.whileLoop e b'))
  | doWhile {e : Expr} {b b' : List Tree} (hb : ErasesList b b') : Erases (.doWhile b e) (some (.doWhile b' e))
  | forLoop {e : Expr} {i i' u u' : Option Tree} {b b' : List Tree} (hi : ErasesPart i i') (hu : ErasesPart u u')
      (hb : ErasesList b b') : Erases (.forLoop i e u b) (some (.forLoop i' e u' b'))
  | forEach {v : LocalVar} {e : Expr} {b b' : List Tree} (hb : ErasesList b b') :
      Erases (.forEach v e b) (some (.forEach v e b'))
  | switch {k : SwitchKind} {e : Expr} {arms arms' : List (Arm × List Tree)} (ha : ErasesArms arms arms') :
      Erases (.switch k e arms) (some (.switch k e arms'))
  | tryCatch {s : TryShape} {b b' : List Tree} {cs cs' : List (Clause × List Tree)} {c c' : Option (List Tree)}
      (hb : ErasesList b b') (hcs : ErasesClauses cs cs') (hc : ErasesBlock c c') :
      Erases (.tryCatch s b cs c) (some (.tryCatch s b' cs' c'))
  | synchronized {e : Expr} {b b' : List Tree} (hb : ErasesList b b') :
      Erases (.synchronized e b) (some (.synchronized e b'))
  | labeled {name : String} {t : Tree} {t' : Option Tree} (ht : Erases t t') :
      Erases (.labeled name t) (t'.map (.labeled name))
  | simple (s : Located) : Erases (.simple s) (some (.simple s))
  | breakTo (name : Option String) : Erases (.breakTo name) (some (.breakTo name))
  | continueTo (name : Option String) : Erases (.continueTo name) (some (.continueTo name))
  | label (name : String) : Erases (.label name) (some (.label name))
  | goto (name : String) : Erases (.goto name) (some (.goto name))
  | comment (text : String) : Erases (.comment text) (some (.comment text))

inductive ErasesPart : Option Tree → Option Tree → Prop
  | none : ErasesPart none none
  | some {t : Tree} {t' : Option Tree} (ht : Erases t t') : ErasesPart (some t) t'

inductive ErasesList : List Tree → List Tree → Prop
  | nil : ErasesList [] []
  | cons {t : Tree} {t' : Option Tree} {ts ts' : List Tree} (ht : Erases t t') (hts : ErasesList ts ts') :
      ErasesList (t :: ts) (t'.toList ++ ts')

inductive ErasesBlock : Option (List Tree) → Option (List Tree) → Prop
  | none : ErasesBlock none none
  | some {b b' : List Tree} (hb : ErasesList b b') : ErasesBlock (some b) (some b')

inductive ErasesArms : List (Arm × List Tree) → List (Arm × List Tree) → Prop
  | nil : ErasesArms [] []
  | cons {a : Arm} {b b' : List Tree} {arms arms' : List (Arm × List Tree)} (hb : ErasesList b b')
      (ha : ErasesArms arms arms') : ErasesArms ((a, b) :: arms) ((a, b') :: arms')

inductive ErasesClauses : List (Clause × List Tree) → List (Clause × List Tree) → Prop
  | nil : ErasesClauses [] []
  | cons {c : Clause} {b b' : List Tree} {cs cs' : List (Clause × List Tree)} (hb : ErasesList b b')
      (hc : ErasesClauses cs cs') : ErasesClauses ((c, b) :: cs) ((c, b') :: cs')

end

end Tree

namespace Sugar

open JvmLift.Tree (Erases ErasesPart ErasesList ErasesBlock ErasesArms ErasesClauses)

theorem erases_declared {t t'} (h : Erases t t') : Erases (declared t) t' := by
  fun_induction declared t generalizing t' with
  | case1 i e u b ih =>
      cases h with
      | forLoop hi hu hb =>
          cases hi with
          | some hi => exact .forLoop (.some (ih hi)) hu hb
  | case2 name t ih =>
      cases h with
      | labeled ht => exact .labeled (ih ht)
  | case3 v value start stop line =>
      cases h
      exact .init ..
  | case4 t => exact h

theorem erasesList_withDeclarations (ps : List Placement) (i : Nat) {t t'} (h : Erases t t')
    {ts ts'} (hts : ErasesList ts ts') : ErasesList (withDeclarations ps i t ++ ts) (t'.toList ++ ts') := by
  unfold withDeclarations
  lift_lets
  intro here bare
  induction bare.reverse with
  | nil =>
      refine .cons ?_ hts
      split
      · exact erases_declared h
      · exact h
  | cons p rest ih => simpa using ErasesList.cons (.bare p.var none) ih

mutual

theorem erases_declareNested (slots : UInt16) (bound : List VarKey) :
    (t : Tree) → ∃ t', Erases t t' ∧ Erases (declareNested slots bound t) t'
  | .ifElse _ t b => by
      obtain ⟨b', hb, hb'⟩ := erasesBlock_declareBlock slots bound b
      exact (erasesList_declareIn slots _ _ 0 t).imp' _ fun _ h => ⟨.ifElse h.1 hb, .ifElse h.2 hb'⟩
  | .whileLoop _ b => (erasesList_declareIn slots _ _ 0 b).imp' _ fun _ h => ⟨.whileLoop h.1, .whileLoop h.2⟩
  | .doWhile b _ => (erasesList_declareIn slots _ _ 0 b).imp' _ fun _ h => ⟨.doWhile h.1, .doWhile h.2⟩
  | .synchronized _ b =>
      (erasesList_declareIn slots _ _ 0 b).imp' _ fun _ h => ⟨.synchronized h.1, .synchronized h.2⟩
  | .forLoop i _ u b => by
      obtain ⟨i', hi⟩ := exists_erasesPart i
      obtain ⟨u', hu⟩ := exists_erasesPart u
      exact (erasesList_declareIn slots _ _ 0 b).imp' _ fun _ h => ⟨.forLoop hi hu h.1, .forLoop hi hu h.2⟩
  | .forEach _ _ b => (erasesList_declareIn slots _ _ 0 b).imp' _ fun _ h => ⟨.forEach h.1, .forEach h.2⟩
  | .switch _ _ arms =>
      (erasesArms_declareArms slots bound arms).imp' _ fun _ h => ⟨.switch h.1, .switch h.2⟩
  | .tryCatch _ b cs c => by
      obtain ⟨cs', hcs, hcs'⟩ := erasesClauses_declareClauses slots bound cs
      obtain ⟨c', hc, hc'⟩ := erasesBlock_declareBlock slots bound c
      exact (erasesList_declareIn slots _ _ 0 b).imp' _ fun _ h => ⟨.tryCatch h.1 hcs hc, .tryCatch h.2 hcs' hc'⟩
  | .labeled _ t => (erases_declareNested slots bound t).imp' _ fun _ h => ⟨.labeled h.1, .labeled h.2⟩
  | .simple s => ⟨_, .simple s, .simple s⟩
  | .declare v none line => ⟨_, .bare v line, .bare v line⟩
  | .declare v (some e) line => ⟨_, .init v e line 0 0, .init v e line 0 0⟩
  | .breakTo name => ⟨_, .breakTo name, .breakTo name⟩
  | .continueTo name => ⟨_, .continueTo name, .continueTo name⟩
  | .label name => ⟨_, .label name, .label name⟩
  | .goto name => ⟨_, .goto name, .goto name⟩
  | .comment text => ⟨_, .comment text, .comment text⟩

theorem exists_erasesPart : (t : Option Tree) → ∃ t', ErasesPart t t'
  | none => ⟨none, .none⟩
  | some t => (erases_declareNested 0 [] t).imp fun _ h => .some h.1

theorem erasesList_declareIn (slots : UInt16) (bound : List VarKey) (ps : List Placement) (i : Nat) :
    (ts : List Tree) → ∃ ts', ErasesList ts ts' ∧ ErasesList (declareIn slots bound ps i ts) ts'
  | [] => ⟨[], .nil, .nil⟩
  | t :: ts => by
      obtain ⟨t', ht, ht'⟩ := erases_declareNested slots bound t
      obtain ⟨ts', hts, hts'⟩ := erasesList_declareIn slots bound ps (i + 1) ts
      exact ⟨_, .cons ht hts, erasesList_withDeclarations ps i ht' hts'⟩

theorem erasesBlock_declareBlock (slots : UInt16) (bound : List VarKey) :
    (b : Option (List Tree)) → ∃ b', ErasesBlock b b' ∧ ErasesBlock (declareBlock slots bound b) b'
  | none => ⟨none, .none, .none⟩
  | some b => (erasesList_declareIn slots _ _ 0 b).imp' _ fun _ h => ⟨.some h.1, .some h.2⟩

theorem erasesArms_declareArms (slots : UInt16) (bound : List VarKey) :
    (arms : List (Arm × List Tree)) → ∃ arms', ErasesArms arms arms' ∧ ErasesArms (declareArms slots bound arms) arms'
  | [] => ⟨[], .nil, .nil⟩
  | (_, b) :: arms => by
      obtain ⟨arms', ha, ha'⟩ := erasesArms_declareArms slots bound arms
      exact (erasesList_declareIn slots _ _ 0 b).imp' _ fun _ h => ⟨.cons h.1 ha, .cons h.2 ha'⟩

theorem erasesClauses_declareClauses (slots : UInt16) (bound : List VarKey) : (cs : List (Clause × List Tree)) →
      ∃ cs', ErasesClauses cs cs' ∧ ErasesClauses (declareClauses slots bound cs) cs'
  | [] => ⟨[], .nil, .nil⟩
  | (_, b) :: cs => by
      obtain ⟨cs', hc, hc'⟩ := erasesClauses_declareClauses slots bound cs
      exact (erasesList_declareIn slots _ _ 0 b).imp' _ fun _ h => ⟨.cons h.1 hc, .cons h.2 hc'⟩

end

/-- Whatever the number of parameter slots and the variables bound around a list, the list has the same
erasure with its declarations as without them. -/
theorem declarations_erased (slots : UInt16) (bound : List VarKey) (ts : List Tree) : ∃ us, ErasesList ts us ∧
      ErasesList (declareIn slots (innerBound bound (placements slots bound ts)) (placements slots bound ts) 0 ts) us :=
  erasesList_declareIn slots _ _ 0 ts

end Sugar

end JvmLift

import JvmLift.Structure.Walk
import JvmLift.Tree.Traverse

/-!
# Nodes of written statements

What is picked out of the nodes of a list of statements. Branches, loops, switches, labels and jumps
are of no interest, so the constructs that the walk writes show what their parts show.
-/
namespace JvmLift.Tree

open List

variable {α : Type}

attribute [local simp] nodes nodesList nodesBlock nodesArms

def picked (pick : Tree → Option α) (ts : List Tree) : List α := (nodesList ts).filterMap pick

/-- Nothing is picked from branches, switches and the jumps inside them. -/
structure Linear (pick : Tree → Option α) : Prop where
  ifElse : ∀ e t b, pick (.ifElse e t b) = none
  switch : ∀ k e arms, pick (.switch k e arms) = none
  breakTo : ∀ name, pick (.breakTo name) = none
  continueTo : ∀ name, pick (.continueTo name) = none

theorem nodesList_append (ts us : List Tree) : nodesList (ts ++ us) = nodesList ts ++ nodesList us := by
  induction ts with
  | nil => simp [nodesList]
  | cons t ts ih => simp [ih]

theorem nodesBlock_eq (b : Option (List Tree)) : nodesBlock b = nodesList (b.getD []) := by
  cases b <;> rfl

theorem nodesArms_eq (arms : List (Arm × List Tree)) : nodesArms arms = nodesList (arms.flatMap (·.2)) := by
  induction arms with
  | nil => rfl
  | cons arm rest ih => simp [nodesArms, ih, nodesList_append]

theorem nodesClauses_eq (cs : List (Clause × List Tree)) : nodesClauses cs = nodesList (cs.flatMap (·.2)) := by
  induction cs with
  | nil => rfl
  | cons c rest ih => simp [nodesClauses, ih, nodesList_append]

section

variable {pick : Tree → Option α}

theorem picked_append (ts us : List Tree) : picked pick (ts ++ us) = picked pick ts ++ picked pick us := by
  simp [picked, nodesList_append]

theorem picked_nil : picked pick [] = [] := rfl

section

variable (hs : ∀ s, pick (.simple s) = none)

include hs

theorem picked_simple (s : Located) (ts : List Tree) : picked pick (.simple s :: ts) = picked pick ts := by
  simp [picked, hs]

theorem picked_stmtsOf (b : Block) : picked pick (Walk.stmtsOf b) = [] := by
  unfold Walk.stmtsOf
  induction b.stmts with
  | nil => rfl
  | cons s rest ih => rw [map_cons, picked_simple hs, ih]

theorem picked_takeCaught (types : List String) (body : List Tree) :
    picked pick (Walk.takeCaught types body).2 = picked pick body := by
  have hmap : ∀ f, picked pick (body.map (Walk.mapSimple f)) = picked pick body := by
    intro f
    induction body with
    | nil => rfl
    | cons t ts ih =>
        have hone : picked pick [Walk.mapSimple f t] = picked pick [t] := by cases t <;> simp [picked, Walk.mapSimple, hs]
        rw [map_cons, ← singleton_append, picked_append, hone, ih, ← picked_append, singleton_append]
  unfold Walk.takeCaught
  split
  · rw [picked_simple hs]
    split <;> rfl
  · exact hmap _

theorem picked_takeLock (out : List Tree) (slot : Option UInt16) :
    picked pick (Walk.takeLock out slot).2 = picked pick out := by
  have hreverse (s : Located) (rev : List Tree) :
      picked pick (Tree.simple s :: rev).reverse = picked pick rev.reverse := by
    rw [reverse_cons, picked_append, picked_simple hs, picked_nil, append_nil]
  have henter : picked pick (Walk.takeEnter out.reverse).2.reverse = picked pick out := by
    unfold Walk.takeEnter
    split
    · rename_i hrev
      rw [← reverse_reverse out, hrev, hreverse]
    · rw [reverse_reverse]
  unfold Walk.takeLock
  dsimp only
  split
  · rename_i rest hrev
    split
    · rw [← henter, hrev, hreverse]
    · exact henter
  · exact henter

end

variable (hp : Linear pick)

include hp

theorem picked_ifThen (e : Expr) (body : List Tree) : picked pick [Walk.ifThen e body] = picked pick body := by
  simp [picked, Walk.ifThen, hp.ifElse]

theorem picked_ifBoth (e : Expr) (thenBody elseBody : List Tree) :
    picked pick [Walk.ifBoth e thenBody elseBody] = picked pick thenBody ++ picked pick elseBody := by
  unfold Walk.ifBoth
  cases thenBody <;> cases elseBody <;>
    simp [picked, Walk.ifThen, hp.ifElse]

theorem picked_jump (j : Walk.Jump) : picked pick [j.tree] = [] := by
  unfold Walk.Jump.tree
  split <;> simp [picked, hp.breakTo, hp.continueTo]

theorem picked_switch (kind : SwitchKind) (key : Expr) (arms : List (Arm × List Tree)) :
    picked pick [.switch kind key arms] = picked pick (arms.flatMap (·.2)) := by
  simp [picked, hp.switch, nodesArms_eq]

omit hp in
theorem picked_around {t body} (ht : t.nodes = t :: nodesList body) (h : pick t = none) :
    picked pick [t] = picked pick body := by
  simp [picked, ht, h]

omit hp in
theorem picked_tryCatch (shape : TryShape) (body : List Tree) (clauses : List (Clause × List Tree))
    (cleanup : Option (List Tree)) : picked pick [.tryCatch shape body clauses cleanup] =
      (pick (.tryCatch shape body clauses cleanup)).toList ++
        picked pick (body ++ clauses.flatMap (·.2) ++ cleanup.getD []) := by
  cases h : pick (.tryCatch shape body clauses cleanup) <;>
    simp [picked, h, nodesList_append, nodesBlock_eq, nodesClauses_eq]

end

section

variable {pick : Tree → Option α}

mutual

theorem picked_stripContinue (hp : Linear pick) : (ts : List Tree) → picked pick (stripContinue ts) = picked pick ts
  | [] => rfl
  | t :: rest => by
      unfold stripContinue
      cases rest with
      | nil => exact picked_stripLast hp t
      | cons u more =>
          have ih := picked_stripContinue hp (u :: more)
          simp only [picked, nodesList, filterMap_append] at ih ⊢
          rw [ih]

theorem picked_stripLast (hp : Linear pick) : (t : Tree) → picked pick t.stripLast = picked pick [t]
  | .continueTo none => by simp [stripLast, picked, nodesList, nodes, hp.continueTo]
  | .ifElse e thenBody elseBody => by
      have ht := picked_stripContinue hp thenBody
      have he := picked_stripBlock hp elseBody
      simp only [picked, stripLast, nodesList, nodes, filterMap_append, filterMap_cons,
        hp.ifElse, append_nil] at ht he ⊢
      rw [ht, he]
  | .continueTo (some _) | .simple _ | .declare .. | .whileLoop .. | .doWhile .. | .forLoop ..
  | .forEach .. | .switch .. | .tryCatch .. | .synchronized .. | .labeled .. | .breakTo _ | .label _
  | .goto _ | .comment _ => rfl

theorem picked_stripBlock (hp : Linear pick) : (b : Option (List Tree)) →
    (nodesBlock (stripBlock b)).filterMap pick = (nodesBlock b).filterMap pick
  | none => rfl
  | some ts => picked_stripContinue hp ts

end

end

/-! ## Simple statements -/

def simple? : Tree → Option Located
  | .simple s => some s
  | _ => none

def simples (ts : List Tree) : List Located := picked simple? ts

theorem linear_simple? : Linear simple? := by
  constructor <;> intros <;> rfl

theorem simples_stmtsOf (b : Block) : picked simple? (Walk.stmtsOf b) = b.stmts := by
  unfold Walk.stmtsOf
  induction b.stmts with
  | nil => rfl
  | cons s rest ih =>
      simp only [picked, map_cons, nodesList, nodes, singleton_append, filterMap_cons,
        simple?] at ih ⊢
      rw [ih]

end JvmLift.Tree

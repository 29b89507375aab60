import JvmLift.Proofs.Tree.Scope
import JvmLift.Proofs.Tree.Vars

/-!
# Relations between nodes

A pass goes through all lists of a body, the innermost first. A relation that does not look beyond the parts that a
node has of its own holds between the bodies if it holds between the lists.
-/
namespace JvmLift.Tree

def isRegion : Tree → Bool
  | .tryCatch .. | .synchronized .. => true
  | _ => false

/-- Nothing is repeated or guarded. -/
def isStraight (t : Tree) : Bool := !t.isLoop && !t.isRegion

/-- A relation between nodes that is given node by node, in place of nodes of which `Q` holds. -/
structure Compositional (Q : List Tree → Prop) (R : List Tree → List Tree → Prop) : Prop where
  nil : R [] []
  node : ∀ {t t' : Tree}, t'.ownExprs = t.ownExprs → t'.ownWrites = t.ownWrites →
    t'.isStraight = t.isStraight → R [t] [t']
  append : ∀ {ns ms ns' ms' : List Tree}, R ns ms → R ns' ms' → R (ns ++ ns') (ms ++ ms')
  trans : ∀ {ns ms ks : List Tree}, R ns ms → R ms ks → R ns ks
  split : ∀ {ns ms : List Tree}, Q (ns ++ ms) → Q ns ∧ Q ms
  keep : ∀ {ns ms : List Tree}, R ns ms → Q ns → Q ms

namespace Compositional

variable {Q : List Tree → Prop} {R : List Tree → List Tree → Prop} (hR : Compositional Q R)

include hR

theorem refl (ns : List Tree) : R ns ns := by
  induction ns with
  | nil => exact hR.nil
  | cons t ns ih => exact hR.append (hR.node rfl rfl rfl) ih

theorem tail {t ns} (h : Q (t :: ns)) : Q ns := (hR.split (show Q ([t] ++ ns) from h)).2

theorem head {t t' ns ms} (he : t'.ownExprs = t.ownExprs) (hw : t'.ownWrites = t.ownWrites)
    (hs : t'.isStraight = t.isStraight) (h : R ns ms) : R (t :: ns) (t' :: ms) := hR.append (hR.node he hw hs) h

theorem map {g} (hg : ∀ t, Q t.nodes → R t.nodes (g t).nodes) :
    (ts : List Tree) → Q (nodesList ts) → R (nodesList ts) (nodesList (ts.map g))
  | [], _ => hR.nil
  | t :: ts, h => by
      obtain ⟨ht, hts⟩ := hR.split h
      exact hR.append (hg t ht) (map hg ts hts)

theorem mapOwn {f} (hf : ∀ t, R [t] [t.mapOwn f]) : (t : Tree) → R t.nodes (t.mapOwn f).nodes
  | .forLoop none _ none _ => hR.append (hf _) (hR.refl _)
  | .forLoop none _ (some u) _ => hR.append (hf _) (hR.append (mapOwn hf u) (hR.refl _))
  | .forLoop (some i) _ none _ => hR.append (hf _) (hR.append (hR.append (mapOwn hf i) hR.nil) (hR.refl _))
  | .forLoop (some i) _ (some u) _ =>
      hR.append (hf _) (hR.append (hR.append (mapOwn hf i) (mapOwn hf u)) (hR.refl _))
  | .labeled _ t => hR.append (hf _) (mapOwn hf t)
  | .ifElse .. | .whileLoop .. | .doWhile .. | .forEach .. | .switch .. | .tryCatch .. | .synchronized .. =>
      hR.append (hf _) (hR.refl _)
  | .simple _ | .declare .. | .breakTo _ | .continueTo _ | .label _ | .goto _ | .comment _ => hf _

end Compositional

/-- Every list of whose nodes `Q` holds is related to what `f` makes of it. -/
abbrev Maps (Q : List Tree → Prop) (R : List Tree → List Tree → Prop) (f : List Tree → List Tree) : Prop :=
  ∀ ts, Q (nodesList ts) → R (nodesList ts) (nodesList (f ts))

theorem map_var_mapClauses (f : List Tree → List Tree) (cs : List (Clause × List Tree)) :
    (mapClauses f cs).map (·.1.var) = cs.map (·.1.var) := by
  induction cs with
  | nil => rfl
  | cons c cs ih => simp [mapClauses, ih]

namespace Compositional

variable {Q : List Tree → Prop} {R : List Tree → List Tree → Prop} (hR : Compositional Q R)
  {f : List Tree → List Tree}

include hR

mutual

theorem mapLists (hf : Maps Q R f) : (t : Tree) → Q t.nodes → R t.nodes (t.mapLists f).nodes
  | .ifElse _ t b, h => by
      obtain ⟨ht, hb⟩ := hR.split (hR.tail h)
      exact hR.head rfl rfl rfl (hR.append (eachList hf t ht) (mapBlock hf b hb))
  | .whileLoop _ b, h | .doWhile b _, h | .forEach _ _ b, h | .synchronized _ b, h =>
      hR.head rfl rfl rfl (eachList hf b (hR.tail h))
  | .forLoop _ _ _ b, h => by
      obtain ⟨-, hb⟩ := hR.split (hR.tail h)
      exact hR.head rfl rfl rfl (hR.append (hR.refl _) (eachList hf b hb))
  | .switch _ _ arms, h => hR.head rfl rfl rfl (mapArms hf arms (hR.tail h))
  | .tryCatch _ b cs c, h => by
      obtain ⟨h, hc⟩ := hR.split (hR.tail h)
      obtain ⟨hb, hcs⟩ := hR.split h
      exact hR.head rfl (map_var_mapClauses f cs) rfl
        (hR.append (hR.append (eachList hf b hb) (mapClauses hf cs hcs)) (mapBlock hf c hc))
  | .labeled _ t, h => hR.head rfl rfl rfl (mapLists hf t (hR.tail h))
  | .simple _, _ | .declare .., _ | .breakTo _, _ | .continueTo _, _ | .label _, _ | .goto _, _ | .comment _, _ =>
      hR.refl _

theorem eachList (hf : Maps Q R f) (ts : List Tree) (h : Q (nodesList ts)) :
    R (nodesList ts) (nodesList (Tree.eachList f ts)) :=
  have hin := mapListsIn hf ts h
  hR.trans hin (hf _ (hR.keep hin h))

theorem mapBlock (hf : Maps Q R f) :
    (b : Option (List Tree)) → Q (nodesBlock b) → R (nodesBlock b) (nodesBlock (Tree.mapBlock f b))
  | none, _ => hR.refl _
  | some ts, h => eachList hf ts h

theorem mapListsIn (hf : Maps Q R f) :
    (ts : List Tree) → Q (nodesList ts) → R (nodesList ts) (nodesList (Tree.mapListsIn f ts))
  | [], _ => hR.nil
  | t :: ts, h => by
      obtain ⟨ht, hts⟩ := hR.split h
      exact hR.append (mapLists hf t ht) (mapListsIn hf ts hts)

theorem mapArms (hf : Maps Q R f) : (arms : List (Arm × List Tree)) → Q (nodesArms arms) →
    R (nodesArms arms) (nodesArms (Tree.mapArms f arms))
  | [], _ => hR.nil
  | (_, b) :: rest, h => by
      obtain ⟨hb, hrest⟩ := hR.split h
      exact hR.append (eachList hf b hb) (mapArms hf rest hrest)

theorem mapClauses (hf : Maps Q R f) : (cs : List (Clause × List Tree)) → Q (nodesClauses cs) →
    R (nodesClauses cs) (nodesClauses (Tree.mapClauses f cs))
  | [], _ => hR.nil
  | (_, b) :: rest, h => by
      obtain ⟨hb, hrest⟩ := hR.split h
      exact hR.append (eachList hf b hb) (mapClauses hf rest hrest)

end

end Compositional

/-! ## Straight statements -/

def Straight (ns : List Tree) : Prop := ∀ t ∈ ns, t.isStraight = true

theorem Straight.compositional : Compositional (fun _ => True) fun ns ms => Straight ns → Straight ms where
  nil h := h
  node _ _ hs h := by simpa [Straight, hs] using h
  append h h' hns := by
    rw [Straight, List.forall_mem_append] at hns ⊢
    exact ⟨h hns.1, h' hns.2⟩
  trans h h' hns := h' (h hns)
  split _ := ⟨trivial, trivial⟩
  keep _ _ := trivial

end JvmLift.Tree

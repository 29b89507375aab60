import JvmLift.Proofs.Data
import JvmLift.Proofs.Tree.Nodes

/-!
# Scopes of jumps

Statements refine others if they are well scoped wherever the others are and if they name nothing that the others do
not name.
-/
namespace JvmLift

open List

/-- What jumps can refer to: whether there is a loop or a switch around, whether there is a loop, the
labels around, and those of loops. -/
structure Scope where
  breaks : Bool
  continues : Bool
  labels : List String
  loopLabels : List String
  deriving DecidableEq, Repr

namespace Scope

def outside : Scope := ⟨false, false, [], []⟩

def inLoop (s : Scope) : Scope := { s with breaks := true, continues := true }

def inSwitch (s : Scope) : Scope := { s with breaks := true }

def named (s : Scope) (name : String) (isLoop : Bool) : Scope :=
  { s with
    labels := name :: s.labels
    loopLabels := if isLoop then name :: s.loopLabels else s.loopLabels }

structure Le (s s' : Scope) : Prop where
  breaks : s.breaks = true → s'.breaks = true
  continues : s.continues = true → s'.continues = true
  labels : s.labels ⊆ s'.labels
  loopLabels : s.loopLabels ⊆ s'.loopLabels

variable {s s' : Scope}

theorem Le.inLoop (h : Le s s') : Le s.inLoop s'.inLoop := ⟨id, id, h.labels, h.loopLabels⟩

theorem Le.inSwitch (h : Le s s') : Le s.inSwitch s'.inSwitch := ⟨id, h.continues, h.labels, h.loopLabels⟩

theorem Le.named (h : Le s s') (name : String) (isLoop : Bool) : Le (s.named name isLoop) (s'.named name isLoop) where
  breaks := h.breaks
  continues := h.continues
  labels := cons_subset_cons name h.labels
  loopLabels := by
    cases isLoop with
    | true => exact cons_subset_cons name h.loopLabels
    | false => exact h.loopLabels

end Scope

namespace Tree

def isLoop : Tree → Bool
  | .whileLoop .. | .doWhile .. | .forLoop .. | .forEach .. => true
  | _ => false

mutual

/-- Every jump in the statement refers to something in its scope. -/
def Scoped (s : Scope) : Tree → Prop
  | .breakTo none => s.breaks = true
  | .breakTo (some name) => name ∈ s.labels
  | .continueTo none => s.continues = true
  | .continueTo (some name) => name ∈ s.loopLabels
  | .ifElse _ t b => ScopedList s t ∧ ScopedBlock s b
  | .whileLoop _ b | .doWhile b _ | .forEach _ _ b => ScopedList s.inLoop b
  | .forLoop i _ u b => ScopedPart s i ∧ ScopedPart s u ∧ ScopedList s.inLoop b
  | .switch _ _ arms => ScopedArms s.inSwitch arms
  | .tryCatch _ b cs c => ScopedList s b ∧ ScopedClauses s cs ∧ ScopedBlock s c
  | .synchronized _ b => ScopedList s b
  | .labeled name t => t.Scoped (s.named name t.isLoop)
  | .simple _ | .declare .. | .label _ | .goto _ | .comment _ => True

def ScopedPart (s : Scope) : Option Tree → Prop
  | none => True
  | some t => t.Scoped s

def ScopedBlock (s : Scope) : Option (List Tree) → Prop
  | none => True
  | some ts => ScopedList s ts

def ScopedList (s : Scope) : List Tree → Prop
  | [] => True
  | t :: ts => t.Scoped s ∧ ScopedList s ts

def ScopedArms (s : Scope) : List (Arm × List Tree) → Prop
  | [] => True
  | (_, b) :: rest => ScopedList s b ∧ ScopedArms s rest

def ScopedClauses (s : Scope) : List (Clause × List Tree) → Prop
  | [] => True
  | (_, b) :: rest => ScopedList s b ∧ ScopedClauses s rest

end

mutual

theorem Scoped.mono {s s'} (hs : s.Le s') : (t : Tree) → t.Scoped s → t.Scoped s'
  | .breakTo none, h => hs.breaks h
  | .breakTo (some _), h => hs.labels h
  | .continueTo none, h => hs.continues h
  | .continueTo (some _), h => hs.loopLabels h
  | .ifElse _ t b, h => ⟨ScopedList.mono hs t h.1, ScopedBlock.mono hs b h.2⟩
  | .whileLoop _ b, h | .doWhile b _, h | .forEach _ _ b, h => ScopedList.mono hs.inLoop b h
  | .forLoop i _ u b, h =>
      ⟨ScopedPart.mono hs i h.1, ScopedPart.mono hs u h.2.1, ScopedList.mono hs.inLoop b h.2.2⟩
  | .switch _ _ arms, h => ScopedArms.mono hs.inSwitch arms h
  | .tryCatch _ b cs c, h =>
      ⟨ScopedList.mono hs b h.1, ScopedClauses.mono hs cs h.2.1, ScopedBlock.mono hs c h.2.2⟩
  | .synchronized _ b, h => ScopedList.mono hs b h
  | .labeled name t, h => Scoped.mono (hs.named name t.isLoop) t h
  | .simple _, _ | .declare .., _ | .label _, _ | .goto _, _ | .comment _, _ => trivial

theorem ScopedPart.mono {s s'} (hs : s.Le s') : (i : Option Tree) → ScopedPart s i → ScopedPart s' i
  | none, _ => trivial
  | some t, h => Scoped.mono hs t h

theorem ScopedBlock.mono {s s'} (hs : s.Le s') : (b : Option (List Tree)) → ScopedBlock s b → ScopedBlock s' b
  | none, _ => trivial
  | some ts, h => ScopedList.mono hs ts h

theorem ScopedList.mono {s s'} (hs : s.Le s') : (ts : List Tree) → ScopedList s ts → ScopedList s' ts
  | [], _ => trivial
  | t :: ts, h => ⟨Scoped.mono hs t h.1, ScopedList.mono hs ts h.2⟩

theorem ScopedArms.mono {s s'} (hs : s.Le s') : (arms : List (Arm × List Tree)) → ScopedArms s arms → ScopedArms s' arms
  | [], _ => trivial
  | (_, b) :: rest, h => ⟨ScopedList.mono hs b h.1, ScopedArms.mono hs rest h.2⟩

theorem ScopedClauses.mono {s s'} (hs : s.Le s') :
    (cs : List (Clause × List Tree)) → ScopedClauses s cs → ScopedClauses s' cs
  | [], _ => trivial
  | (_, b) :: rest, h => ⟨ScopedList.mono hs b h.1, ScopedClauses.mono hs rest h.2⟩

end

section

variable {s : Scope} {t : Tree} {ts us : List Tree}

@[simp] theorem scopedList_nil : ScopedList s [] := trivial

@[simp] theorem scopedList_cons : ScopedList s (t :: ts) ↔ t.Scoped s ∧ ScopedList s ts := Iff.rfl

theorem scopedList_singleton : ScopedList s [t] ↔ t.Scoped s := by simp

@[simp] theorem scopedList_append : ScopedList s (ts ++ us) ↔ ScopedList s ts ∧ ScopedList s us := by
  induction ts with
  | nil => simp
  | cons t ts ih => simp [ih, and_assoc]

theorem scopedBlock_iff (b : Option (List Tree)) : ScopedBlock s b ↔ ScopedList s (b.getD []) := by
  cases b <;> simp [ScopedBlock]

theorem scopedArms_iff (arms : List (Arm × List Tree)) : ScopedArms s arms ↔ ScopedList s (arms.flatMap (·.2)) := by
  induction arms with
  | nil => simp [ScopedArms]
  | cons arm rest ih => simp [ScopedArms, ih]

theorem scopedClauses_iff (cs : List (Clause × List Tree)) : ScopedClauses s cs ↔ ScopedList s (cs.flatMap (·.2)) := by
  induction cs with
  | nil => simp [ScopedClauses]
  | cons c rest ih => simp [ScopedClauses, ih]

end

/-! ## Labels and jumps to labels -/

/-- What is named: a label in front of a statement, a place that a `goto` leads to, and the place that
a `goto` asks for. -/
inductive Mark where
  | label (name : String)
  | place (name : String)
  | goto (name : String)
  deriving DecidableEq, Repr

def mark? : Tree → Option Mark
  | .labeled name _ => some (.label name)
  | .label name => some (.place name)
  | .goto name => some (.goto name)
  | _ => none

def marks (ts : List Tree) : List Mark := picked mark? ts

section

variable (ts us : List Tree)

@[simp] theorem marks_nil : marks [] = [] := rfl

@[simp] theorem marks_append : marks (ts ++ us) = marks ts ++ marks us := picked_append ts us

@[simp] theorem marks_simple (s : Located) : marks [.simple s] = [] := rfl

@[simp] theorem marks_label (name : String) : marks [.label name] = [.place name] := rfl

@[simp] theorem marks_goto (name : String) : marks [.goto name] = [.goto name] := rfl

@[simp] theorem marks_ifElse (e : Expr) (b : Option (List Tree)) :
    marks [.ifElse e ts b] = marks ts ++ marks (b.getD []) := by
  simp [marks, picked, nodesList, nodes, filterMap_cons, mark?, nodesBlock_eq]

@[simp] theorem marks_whileLoop (e : Expr) : marks [.whileLoop e ts] = marks ts := picked_around rfl rfl

@[simp] theorem marks_doWhile (e : Expr) : marks [.doWhile ts e] = marks ts := picked_around rfl rfl

@[simp] theorem marks_forLoop (i u : Option Tree) (e : Expr) :
    marks [.forLoop i e u ts] = marks i.toList ++ marks u.toList ++ marks ts := by
  cases i <;> cases u <;> simp [marks, picked, nodesList, nodes, nodesPart, filterMap_cons, mark?]

@[simp] theorem marks_forEach (v : LocalVar) (e : Expr) : marks [.forEach v e ts] = marks ts := picked_around rfl rfl

@[simp] theorem marks_switch (k : SwitchKind) (e : Expr) (arms : List (Arm × List Tree)) :
    marks [.switch k e arms] = marks (arms.flatMap (·.2)) :=
  picked_around (congrArg _ (nodesArms_eq arms)) rfl

@[simp] theorem marks_tryCatch (shape : TryShape) (cs : List (Clause × List Tree)) (c : Option (List Tree)) :
    marks [.tryCatch shape ts cs c] = marks ts ++ marks (cs.flatMap (·.2)) ++ marks (c.getD []) := by
  rw [marks, picked_tryCatch, ← marks, marks_append, marks_append]
  rfl

@[simp] theorem marks_synchronized (e : Expr) : marks [.synchronized e ts] = marks ts := picked_around rfl rfl

@[simp] theorem marks_labeled (name : String) (t : Tree) : marks [.labeled name t] = .label name :: marks [t] := by
  simp [marks, picked, nodesList, nodes, mark?]

end

namespace Mark

def label? : Mark → Option String
  | .label name => some name
  | .place _ | .goto _ => none

def place? : Mark → Option String
  | .place name => some name
  | .label _ | .goto _ => none

variable {ms : List Mark} {name : String}

theorem mem_label? : name ∈ ms.filterMap label? ↔ .label name ∈ ms :=
  mem_filterMap_iff_mem fun m => by cases m <;> simp [label?]

theorem mem_place? : name ∈ ms.filterMap place? ↔ .place name ∈ ms :=
  mem_filterMap_iff_mem fun m => by cases m <;> simp [place?]

end Mark

def frontLabel? : Tree → Option String
  | .labeled name _ => some name
  | _ => none

def placeName? : Tree → Option String
  | .label name => some name
  | _ => none

theorem frontLabel?_eq (t : Tree) : t.frontLabel? = t.mark?.bind Mark.label? := by cases t <;> rfl

theorem placeName?_eq (t : Tree) : t.placeName? = t.mark?.bind Mark.place? := by cases t <;> rfl

theorem filterMap_nodesList {f} {g : Mark → Option String} (h : ∀ t : Tree, f t = t.mark?.bind g) (ts : List Tree) :
    (nodesList ts).filterMap f = (marks ts).filterMap g := by
  rw [marks, picked, filterMap_filterMap, funext h]

theorem goto_mem_marks {ts name} : .goto name ∈ nodesList ts ↔ .goto name ∈ marks ts :=
  (mem_filterMap_iff_mem fun t => by cases t <;> simp [mark?]).symm

/-! ## Refinement -/

/-- Statements that are well scoped where others are, and name nothing that these do not name. -/
structure Refines (us ts : List Tree) : Prop where
  jumps : ∀ s, ScopedList s ts → ScopedList s us
  marks : (marks us).Sublist (marks ts)

/-- The same for one statement, which is a loop if and only if the other one is. -/
structure RefinesOne (u t : Tree) : Prop where
  refines : Refines [u] [t]
  isLoop : u.isLoop = t.isLoop

namespace Refines

variable {ts us vs ts' us' : List Tree} {t u : Tree}

theorem refl (ts : List Tree) : Refines ts ts := ⟨fun _ => id, List.Sublist.refl _⟩

theorem trans (h : Refines us ts) (h' : Refines vs us) : Refines vs ts :=
  ⟨fun s hs => h'.jumps s (h.jumps s hs), h'.marks.trans h.marks⟩

theorem append (h : Refines us ts) (h' : Refines us' ts') : Refines (us ++ us') (ts ++ ts') where
  jumps s hs := by
    simp only [scopedList_append] at hs ⊢
    exact ⟨h.jumps s hs.1, h'.jumps s hs.2⟩
  marks := by simpa using h.marks.append h'.marks

theorem cons (h : Refines [u] [t]) (h' : Refines us ts) : Refines (u :: us) (t :: ts) := h.append h'

theorem drop (h : Refines us ts') : Refines us (ts ++ ts') where
  jumps s hs := h.jumps s (scopedList_append.mp hs).2
  marks := by
    rw [marks_append]
    exact h.marks.trans (sublist_append_right ..)

theorem drop_cons (h : Refines us ts) : Refines us (t :: ts) :=
  show Refines us ([t] ++ ts) from h.drop

theorem of_sublist (h : us.Sublist ts) : Refines us ts := by
  induction h with
  | slnil => exact refl _
  | cons t _ ih => exact ih.drop_cons
  | cons_cons t _ ih => exact (refl [t]).cons ih

end Refines

theorem RefinesOne.refl (t : Tree) : RefinesOne t t := ⟨.refl _, rfl⟩

namespace RefinesOne

variable {ts ts' : List Tree} {t t' : Tree}

theorem of_scoped (hloop : t'.isLoop = t.isLoop) (hjumps : ∀ s, Scoped s t → Scoped s t')
    (hmarks : (marks [t']).Sublist (marks [t])) : RefinesOne t' t where
  refines := ⟨fun s hs => scopedList_singleton.mpr (hjumps s (scopedList_singleton.mp hs)), hmarks⟩
  isLoop := hloop

theorem ifElse (e e' : Expr) {b b'} (h : Refines ts' ts)
    (hb : Refines (b'.getD []) (b.getD [])) : RefinesOne (.ifElse e' ts' b') (.ifElse e ts b) := by
  refine .of_scoped rfl (fun s hs => ?_) (by simpa using h.marks.append hb.marks)
  simp only [Scoped, scopedBlock_iff] at hs ⊢
  exact ⟨h.jumps s hs.1, hb.jumps s hs.2⟩

theorem whileLoop (e e' : Expr) (h : Refines ts' ts) : RefinesOne (.whileLoop e' ts') (.whileLoop e ts) :=
  .of_scoped rfl (fun _ => h.jumps _) (by simpa using h.marks)

theorem doWhile (e e' : Expr) (h : Refines ts' ts) : RefinesOne (.doWhile ts' e') (.doWhile ts e) :=
  .of_scoped rfl (fun _ => h.jumps _) (by simpa using h.marks)

theorem forEach (v v' : LocalVar) (e e' : Expr) (h : Refines ts' ts) :
    RefinesOne (.forEach v' e' ts') (.forEach v e ts) :=
  .of_scoped rfl (fun _ => h.jumps _) (by simpa using h.marks)

theorem scopedPart_iff (s : Scope) (i : Option Tree) : ScopedPart s i ↔ ScopedList s i.toList := by
  cases i <;> simp [ScopedPart]

theorem forLoop (e e' : Expr) {i i' u u'} (hi : Refines i'.toList i.toList)
    (hu : Refines u'.toList u.toList) (h : Refines ts' ts) :
    RefinesOne (.forLoop i' e' u' ts') (.forLoop i e u ts) := by
  refine .of_scoped rfl (fun s hs => ?_) (by simpa using (hi.marks.append hu.marks).append h.marks)
  simp only [Scoped, scopedPart_iff] at hs ⊢
  exact ⟨hi.jumps s hs.1, hu.jumps s hs.2.1, h.jumps _ hs.2.2⟩

theorem switch (k k' : SwitchKind) (e e' : Expr) {arms arms'} (h : Refines (arms'.flatMap (·.2)) (arms.flatMap (·.2))) :
    RefinesOne (.switch k' e' arms') (.switch k e arms) := by
  refine .of_scoped rfl (fun s hs => ?_) (by simpa using h.marks)
  simp only [Scoped, scopedArms_iff] at hs ⊢
  exact h.jumps _ hs

theorem tryCatch (shape : TryShape) {cs cs' c c'}
    (h : Refines ts' ts) (hcs : Refines (cs'.flatMap (·.2)) (cs.flatMap (·.2)))
    (hc : Refines (c'.getD []) (c.getD [])) : RefinesOne (.tryCatch shape ts' cs' c') (.tryCatch shape ts cs c) := by
  refine .of_scoped rfl (fun s hs => ?_) (by simpa using (h.marks.append hcs.marks).append hc.marks)
  simp only [Scoped, scopedClauses_iff, scopedBlock_iff] at hs ⊢
  exact ⟨h.jumps s hs.1, hcs.jumps s hs.2.1, hc.jumps s hs.2.2⟩

theorem synchronized (e e' : Expr) (h : Refines ts' ts) : RefinesOne (.synchronized e' ts') (.synchronized e ts) :=
  .of_scoped rfl (fun _ => h.jumps _) (by simpa using h.marks)

theorem labeled (name : String) (h : RefinesOne t' t) : RefinesOne (.labeled name t') (.labeled name t) := by
  refine .of_scoped rfl (fun s hs => ?_) (by simpa using h.refines.marks)
  simp only [Scoped] at hs ⊢
  rw [h.isLoop]
  exact scopedList_singleton.mp (h.refines.jumps _ (scopedList_singleton.mpr hs))

end RefinesOne

/-! ## Refinement in every list -/

section

variable {f : List Tree → List Tree}

mutual

theorem RefinesOne.mapLists (hf : ∀ ts, Refines (f ts) ts) : (t : Tree) → RefinesOne (t.mapLists f) t
  | .ifElse e t b => .ifElse e e (Refines.eachList hf t) (Refines.mapBlock hf b)
  | .whileLoop e b => .whileLoop e e (Refines.eachList hf b)
  | .doWhile b e => .doWhile e e (Refines.eachList hf b)
  | .forLoop _ e _ b => .forLoop e e (.refl _) (.refl _) (Refines.eachList hf b)
  | .forEach v e b => .forEach v v e e (Refines.eachList hf b)
  | .switch k e arms => .switch k k e e (Refines.mapArms hf arms)
  | .tryCatch s b cs c => .tryCatch s (Refines.eachList hf b) (Refines.mapClauses hf cs) (Refines.mapBlock hf c)
  | .synchronized e b => .synchronized e e (Refines.eachList hf b)
  | .labeled name t => .labeled name (RefinesOne.mapLists hf t)
  | .simple _ | .declare .. | .breakTo _ | .continueTo _ | .label _ | .goto _ | .comment _ => .refl _

theorem Refines.mapBlock (hf : ∀ ts, Refines (f ts) ts) :
    (b : Option (List Tree)) → Refines ((Tree.mapBlock f b).getD []) (b.getD [])
  | none => .refl _
  | some ts => Refines.eachList hf ts

theorem Refines.mapListsIn (hf : ∀ ts, Refines (f ts) ts) : (ts : List Tree) → Refines (Tree.mapListsIn f ts) ts
  | [] => .refl _
  | t :: ts => (RefinesOne.mapLists hf t).refines.cons (Refines.mapListsIn hf ts)

theorem Refines.eachList (hf : ∀ ts, Refines (f ts) ts) (ts : List Tree) : Refines (Tree.eachList f ts) ts :=
  (Refines.mapListsIn hf ts).trans (hf _)

theorem Refines.mapArms (hf : ∀ ts, Refines (f ts) ts) : (arms : List (Arm × List Tree)) →
    Refines ((Tree.mapArms f arms).flatMap (·.2)) (arms.flatMap (·.2))
  | [] => .refl _
  | (_, b) :: rest => (Refines.eachList hf b).append (Refines.mapArms hf rest)

theorem Refines.mapClauses (hf : ∀ ts, Refines (f ts) ts) : (cs : List (Clause × List Tree)) →
    Refines ((Tree.mapClauses f cs).flatMap (·.2)) (cs.flatMap (·.2))
  | [] => .refl _
  | (_, b) :: rest => (Refines.eachList hf b).append (Refines.mapClauses hf rest)

end

end

end Tree

end JvmLift

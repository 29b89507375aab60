import JvmLift.Block.Duplicates
import JvmLift.Proofs.Tree.Operands

/-!
# Settling duplicates

A duplicate that is read is settled: its value moves to the read, or a variable keeps it. What stands for it in the
end reads no duplicates, however deep values nest.
-/
namespace JvmLift

open List

def Expr.fillLoad (g : Nat → Expr) : Expr → Expr
  | .dupLoad id => g id
  | e => e

def Stmt.copyId? : Stmt → Option Nat
  | .dupStore id => some id
  | _ => none

theorem Stmt.copyId?_eq_none {s : Stmt} (h : ∀ id, s ≠ .dupStore id) : s.copyId? = none := by
  cases s with
  | dupStore id => exact absurd rfl (h id)
  | _ => rfl

/-! ## Stand-ins -/

namespace Expr

theorem mapNodes_fillLoad (g : Nat → Expr) {e : Expr} (h : ¬∃ id, e = .dupLoad id) :
    e.mapNodes (fillLoad g) = e.mapOperands (mapNodes (fillLoad g)) := by
  rw [mapNodes_eq]
  cases e with
  | dupLoad id => exact absurd ⟨id, rfl⟩ h
  | _ => rfl

theorem mapNodes_fillLoad_congr {g g' : Nat → Expr} (e : Expr) (h : ∀ id, .dupLoad id ∈ e.nodes → g id = g' id) :
    e.mapNodes (fillLoad g) = e.mapNodes (fillLoad g') := by
  induction e using operands_induction with
  | step e ih =>
      by_cases he : ∃ id, e = .dupLoad id
      · obtain ⟨id, rfl⟩ := he
        exact h id (mem_singleton_self _)
      · rw [mapNodes_fillLoad g he, mapNodes_fillLoad g' he]
        exact mapOperands_congr fun x hx => ih x hx fun id hid => h id (mem_nodes.mpr (.inr ⟨x, hx, hid⟩))

theorem mem_nodesList {es x} : x ∈ nodesList es ↔ ∃ e ∈ es, x ∈ e.nodes := by
  rw [nodesList_eq, mem_flatMap]

theorem mem_mapNodes_fillLoad {g} {n : Nat} (e : Expr) :
    .dupLoad n ∈ (e.mapNodes (fillLoad g)).nodes ↔ ∃ id, .dupLoad id ∈ e.nodes ∧ .dupLoad n ∈ (g id).nodes := by
  induction e using operands_induction with
  | step e ih =>
      by_cases he : ∃ id, e = .dupLoad id
      · obtain ⟨id, rfl⟩ := he
        simp [mapNodes, fillLoad, nodes]
      · have hne (id : Nat) : .dupLoad id ≠ e := fun h => he ⟨id, h.symm⟩
        have hne' : .dupLoad n ≠ e.mapOperands (mapNodes (fillLoad g)) := by cases e <;> simp_all [mapOperands]
        have hmem (id : Nat) : .dupLoad id ∈ e.nodes ↔ ∃ x ∈ e.operands, .dupLoad id ∈ x.nodes := by
          simpa [hne] using mem_nodes (e := e) (x := .dupLoad id)
        rw [mapNodes_fillLoad g he, mem_nodes, operands_mapOperands]
        simp only [hne', false_or, mem_map, hmem]
        constructor
        · rintro ⟨_, ⟨x, hx, rfl⟩, hn⟩
          obtain ⟨id, hid, hg⟩ := (ih x hx).mp hn
          exact ⟨id, ⟨x, hx, hid⟩, hg⟩
        · rintro ⟨id, ⟨x, hx, hid⟩, hg⟩
          exact ⟨_, ⟨x, hx, rfl⟩, (ih x hx).mpr ⟨id, hid, hg⟩⟩

end Expr

namespace Duplicates

variable {settled : List (Nat × Settlement)}

/-- What stands for a duplicated value where it is read. -/
def standIn (settled : List (Nat × Settlement)) (depth id : Nat) : Expr := replaceLoads settled depth (.dupLoad id)

theorem replaceLoads_eq_fillLoad (settled : List (Nat × Settlement)) (depth : Nat) :
    replaceLoads settled depth = Expr.fillLoad (standIn settled depth) := by
  funext e
  cases depth <;> cases e <;> rfl

theorem standIn_succ (settled : List (Nat × Settlement)) (depth id : Nat) : standIn settled (depth + 1) id =
      match settled.lookup id with
      | some (.inlined value) => value.mapNodes (.fillLoad (standIn settled depth))
      | some (.var v) => .localVar v
      | none => .dupLoad id := by
  rw [← replaceLoads_eq_fillLoad]
  rfl

/-- Values that move hold reads of earlier ones only. -/
def Nested (settled : List (Nat × Settlement)) : Prop :=
  ∀ id value, settled.lookup id = some (.inlined value) → ∀ n, .dupLoad n ∈ value.nodes → n < id

variable {id : Nat}

theorem Nested.standIn_eq (h : Nested settled) {depth depth'} (hd : id < depth) (hd' : id < depth') :
    standIn settled depth id = standIn settled depth' id := by
  induction id using Nat.strongRecOn generalizing depth depth' with
  | _ id ih =>
      obtain ⟨k, rfl⟩ := Nat.exists_eq_succ_of_ne_zero (Nat.ne_of_gt (Nat.zero_lt_of_lt hd))
      obtain ⟨k', rfl⟩ := Nat.exists_eq_succ_of_ne_zero (Nat.ne_of_gt (Nat.zero_lt_of_lt hd'))
      rw [standIn_succ, standIn_succ]
      split
      · rename_i value hvalue
        refine Expr.mapNodes_fillLoad_congr value fun n hn => ?_
        have hlt := h id value hvalue n hn
        exact ih n hlt (by omega) (by omega)
      · rfl
      · rfl

theorem Nested.standIn_inlined (h : Nested settled) {depth value} (hd : id < depth)
    (hvalue : settled.lookup id = some (.inlined value)) :
    standIn settled depth id = value.mapNodes (.fillLoad (standIn settled depth)) := by
  obtain ⟨k, rfl⟩ := Nat.exists_eq_succ_of_ne_zero (Nat.ne_of_gt (Nat.zero_lt_of_lt hd))
  have hsucc := standIn_succ settled k id
  simp only [hvalue] at hsucc
  refine hsucc.trans (Expr.mapNodes_fillLoad_congr value fun n hn => ?_)
  have hlt := h id value hvalue n hn
  exact h.standIn_eq (by omega) (by omega)

/-! ## What settling does -/

theorem storedTo?_eq_some {s v} (h : storedTo? id s = some v) : s = .store v (.dupLoad id) ∧ v.origin = .slot := by
  unfold storedTo? at h
  split at h
  · split at h
    · rename_i hcond
      cases h
      exact ⟨by rw [hcond.1], hcond.2⟩
    · cases h
  · cases h

/-- What settling does with statements: a duplicate loses its statement, or is kept in the local that
takes it at once or in a new temporary. -/
inductive Settles (ds : Duplicates) (total : Nat → Nat) : Progress → List Located → Progress → List Located → Prop
  | nil {p} : Settles ds total p [] p []
  | absent {p s rest id p' out} (hs : s.stmt = .dupStore id) (hv : ds.get? id = none)
      (h : Settles ds total p rest p' out) : Settles ds total p (s :: rest) p' out
  | drop {p s rest id value p' out} (hs : s.stmt = .dupStore id) (hv : ds.get? id = some value)
      (hunread : total id = 0) (h : Settles ds total p rest p' out) :
      Settles ds total p (s :: rest) p' ((if value.hasSideEffects then [s.withStmt (.expr value)] else []) ++ out)
  | inline {p s rest id value p' out} (hs : s.stmt = .dupStore id) (hv : ds.get? id = some value)
      (h : Settles ds total ⟨(id, .inlined value) :: p.settled, p.nextTemp⟩ rest p' out) :
      Settles ds total p (s :: rest) p' out
  | save {p s rest id value p' out} (hs : s.stmt = .dupStore id) (hv : ds.get? id = some value)
      (hnext : ∀ next ∈ rest.head?, storedTo? id next.stmt = none)
      (h : Settles ds total ⟨(id, .var (.ofTemp p.nextTemp value.ty)) :: p.settled, p.nextTemp + 1⟩ rest p' out) :
      Settles ds total p (s :: rest) p' (s.withStmt (.store (.ofTemp p.nextTemp value.ty) value) :: out)
  | join {p s next rest id value v p' out} (hs : s.stmt = .dupStore id) (hv : ds.get? id = some value)
      (hnext : storedTo? id next.stmt = some v)
      (h : Settles ds total ⟨(id, .var v) :: p.settled, p.nextTemp⟩ rest p' out) :
      Settles ds total p (s :: next :: rest) p' (next.withStmt (.store v value) :: out)
  | keep {p s rest p' out} (hs : s.stmt.copyId? = none) (h : Settles ds total p rest p' out) :
      Settles ds total p (s :: rest) p' (s :: out)

variable {ds : Duplicates} {total : Nat → Nat} {p : Progress}

theorem settles_settle {s rest value k p' out} (hs : s.stmt = .dupStore id) (hv : ds.get? id = some value)
    (hnext : ∀ next ∈ rest.head?, storedTo? id next.stmt = none)
    (h : Settles ds total (settle p s id value (total id) k).1 rest p' out) :
    Settles ds total p (s :: rest) p' ((settle p s id value (total id) k).2 ++ out) := by
  unfold settle at *
  split
  · rename_i ht
    rw [if_pos ht] at h
    exact .drop hs hv ht h
  · rename_i ht
    rw [if_neg ht] at h
    split
    · rename_i hk
      rw [if_pos hk] at h
      exact .inline hs hv h
    · rename_i hk
      rw [if_neg hk] at h
      exact .save hs hv hnext h

theorem settles_settleStmts (ds : Duplicates) (total here : Nat → Nat) (p : Progress) (stmts : List Located) :
    Settles ds total p stmts (settleStmts ds total here p stmts).1 (settleStmts ds total here p stmts).2 := by
  fun_induction settleStmts ds total here p stmts with
  | case1 => exact .nil
  | case2 p s rest id hs hv ih => exact .absent hs hv ih
  | case3 p s id hs value hv =>
      have hnext : ∀ next ∈ ([] : List Located).head?, storedTo? id next.stmt = none := nofun
      simpa using settles_settle hs hv hnext .nil
  | case4 p s id hs value hv next rest v hnext p' out heq ih =>
      rw [heq] at ih
      exact .join hs hv hnext ih
  | case5 p s id hs value hv next rest hnext p1 kept hsettle p' out heq ih =>
      rw [heq] at ih
      have hrest : Settles ds total (settle p s id value (total id) (here id)).1 (next :: rest) p' out := hsettle ▸ ih
      have := settles_settle hs hv (by simpa using hnext) hrest
      rwa [hsettle] at this
  | case6 p s rest p' out heq hs ih =>
      rw [heq] at ih
      exact .keep (Stmt.copyId?_eq_none hs) ih

namespace Settles

variable {p' : Progress} {stmts out : List Located}

theorem lookup_eq (h : Settles ds total p stmts p' out) (hid : id ∉ stmts.filterMap (·.stmt.copyId?)) :
    p'.settled.lookup id = p.settled.lookup id := by
  have hcons : ∀ {n : Nat} {x : Settlement} {l : List (Nat × Settlement)}, id ≠ n →
      ((n, x) :: l).lookup id = l.lookup id :=
    fun hne => by rw [lookup_cons, beq_eq_false_iff_ne.mpr hne]
  induction h with
  | nil => rfl
  | absent hs _ _ ih | drop hs _ _ _ ih =>
      simp only [filterMap_cons, hs, Stmt.copyId?, mem_cons, not_or] at hid
      exact ih hid.2
  | inline hs _ _ ih | save hs _ _ _ ih =>
      simp only [filterMap_cons, hs, Stmt.copyId?, mem_cons, not_or] at hid
      exact (ih hid.2).trans (hcons hid.1)
  | join hs _ hnext _ ih =>
      simp only [filterMap_cons, hs, (storedTo?_eq_some hnext).1, Stmt.copyId?, mem_cons, not_or] at hid
      exact (ih hid.2).trans (hcons hid.1)
  | keep hs _ ih =>
      simp only [filterMap_cons, hs] at hid
      exact ih hid

theorem inlined (h : Settles ds total p stmts p' out)
    (hp : ∀ id value, p.settled.lookup id = some (.inlined value) → ds.get? id = some value) :
    ∀ id value, p'.settled.lookup id = some (.inlined value) → ds.get? id = some value := by
  have hcons : ∀ {n : Nat} {x : Settlement} {l : List (Nat × Settlement)},
      (∀ value, x = .inlined value → ds.get? n = some value) →
      (∀ id value, l.lookup id = some (.inlined value) → ds.get? id = some value) →
      ∀ id value, ((n, x) :: l).lookup id = some (.inlined value) → ds.get? id = some value := by
    intro n x l hx hl id value hid
    rw [lookup_cons] at hid
    split at hid
    · rename_i heq
      obtain rfl : id = n := beq_iff_eq.mp heq
      exact hx value (Option.some.inj hid)
    · exact hl id value hid
  induction h with
  | nil => exact hp
  | absent _ _ _ ih | drop _ _ _ _ ih | keep _ _ ih => exact ih hp
  | inline _ hv _ ih =>
      refine ih (hcons (fun value hx => ?_) hp)
      cases hx
      exact hv
  | save _ _ _ _ ih | join _ _ _ _ ih => exact ih (hcons nofun hp)

theorem isSome_lookup_cons {n} {x : Settlement} {l}
    (h : (l.lookup id).isSome = true) : (((n, x) :: l).lookup id).isSome = true := by
  rw [lookup_cons]
  split
  · rfl
  · exact h

variable (h : Settles ds total p stmts p' out)

include h

theorem isSome_lookup (hid : (p.settled.lookup id).isSome = true) : (p'.settled.lookup id).isSome = true := by
  induction h with
  | nil => exact hid
  | absent _ _ _ ih | drop _ _ _ _ ih | keep _ _ ih => exact ih hid
  | inline _ _ _ ih | save _ _ _ _ ih | join _ _ _ _ ih => exact ih (isSome_lookup_cons hid)

theorem isSome_lookup_of_read (hid : id ∈ stmts.filterMap (·.stmt.copyId?))
    (hv : ds.get? id ≠ none) (hread : total id ≠ 0) : (p'.settled.lookup id).isSome = true := by
  induction h with
  | nil => cases hid
  | absent hs hnone _ ih =>
      simp only [filterMap_cons, hs, Stmt.copyId?, mem_cons] at hid
      rcases hid with rfl | hid
      · exact absurd hnone hv
      · exact ih hid
  | drop hs _ hunread _ ih =>
      simp only [filterMap_cons, hs, Stmt.copyId?, mem_cons] at hid
      rcases hid with rfl | hid
      · exact absurd hunread hread
      · exact ih hid
  | inline hs _ h ih | save hs _ _ h ih =>
      simp only [filterMap_cons, hs, Stmt.copyId?, mem_cons] at hid
      rcases hid with rfl | hid
      · exact h.isSome_lookup (by simp)
      · exact ih hid
  | join hs _ hnext h ih =>
      simp only [filterMap_cons, hs, (storedTo?_eq_some hnext).1, Stmt.copyId?, mem_cons] at hid
      rcases hid with rfl | hid
      · exact h.isSome_lookup (by simp)
      · exact ih hid
  | keep hs _ ih =>
      simp only [filterMap_cons, hs] at hid
      exact ih hid

theorem copyId?_out : ∀ s ∈ out, s.stmt.copyId? = none := by
  induction h with
  | nil => exact nofun
  | absent _ _ _ ih | inline _ _ _ ih => exact ih
  | drop _ _ _ _ ih =>
      intro s hs
      rcases mem_append.mp hs with hs | hs
      · split at hs
        · rw [mem_singleton.mp hs]
          rfl
        · cases hs
      · exact ih s hs
  | save _ _ _ _ ih | join _ _ _ _ ih => exact forall_mem_cons.mpr ⟨rfl, ih⟩
  | keep hs _ ih => exact forall_mem_cons.mpr ⟨hs, ih⟩

theorem mem_nodes_out :
    ∀ s ∈ out, ∀ e ∈ s.stmt.nodes, (∃ s' ∈ stmts, e ∈ s'.stmt.nodes) ∨ ∃ value ∈ ds.values, e ∈ value.nodes := by
  have hvalue : ∀ {id : Nat} {value : Expr}, ds.get? id = some value → value ∈ ds.values :=
    fun h => List.mem_of_getElem? h
  have hmore : ∀ {s0 : Located} {stmts : List Located} {e : Expr},
      ((∃ s' ∈ stmts, e ∈ s'.stmt.nodes) ∨ ∃ value ∈ ds.values, e ∈ value.nodes) →
        (∃ s' ∈ s0 :: stmts, e ∈ s'.stmt.nodes) ∨ ∃ value ∈ ds.values, e ∈ value.nodes :=
    fun h => h.imp_left fun ⟨s', hs', he⟩ => ⟨s', mem_cons_of_mem _ hs', he⟩
  induction h with
  | nil => exact nofun
  | absent _ _ _ ih | inline _ _ _ ih => exact fun s hs e he => hmore (ih s hs e he)
  | drop _ hv _ _ ih =>
      intro s hs e he
      rcases mem_append.mp hs with hs | hs
      · split at hs
        · rw [mem_singleton.mp hs] at he
          exact .inr ⟨_, hvalue hv, by simpa [Stmt.nodes, Stmt.operands, Located.withStmt] using he⟩
        · cases hs
      · exact hmore (ih s hs e he)
  | save _ hv _ _ ih =>
      intro s hs e he
      rcases mem_cons.mp hs with rfl | hs
      · exact .inr ⟨_, hvalue hv, by simpa [Stmt.nodes, Stmt.operands, Located.withStmt] using he⟩
      · exact hmore (ih s hs e he)
  | join _ hv _ _ ih =>
      intro s hs e he
      rcases mem_cons.mp hs with rfl | hs
      · exact .inr ⟨_, hvalue hv, by simpa [Stmt.nodes, Stmt.operands, Located.withStmt] using he⟩
      · exact hmore (hmore (ih s hs e he))
  | keep _ _ ih =>
      intro s hs e he
      rcases mem_cons.mp hs with rfl | hs
      · exact .inl ⟨s, mem_cons_self, he⟩
      · exact hmore (ih s hs e he)

end Settles

end Duplicates

/-! ## All blocks -/

def Block.copyIds (b : Block) : List Nat := b.stmts.filterMap (·.stmt.copyId?)

def Block.operands (b : Block) : List Expr :=
  b.stmts.flatMap (·.stmt.operands) ++ b.exit.operand?.toList ++ b.stack

theorem Block.nodes_eq (b : Block) : b.nodes = b.operands.flatMap (·.nodes) := by
  simp only [Block.nodes, Block.operands, Stmt.nodes, flatMap_append, flatMap_assoc]

theorem Stmt.operands_mapNodes (f : Expr → Expr) (s : Stmt) :
    (s.mapNodes f).operands = s.operands.map (·.mapNodes f) := by
  cases s with
  | fieldStore owner name t object value => cases object <;> rfl
  | leave value => cases value <;> rfl
  | _ => rfl

theorem Stmt.copyId?_mapNodes (f : Expr → Expr) (s : Stmt) : (s.mapNodes f).copyId? = s.copyId? := by
  cases s <;> rfl

theorem Exit.operand?_mapNodes (f : Expr → Expr) (x : Exit) :
    (x.mapNodes f).operand? = x.operand?.map (·.mapNodes f) := by
  cases x <;> rfl

theorem Block.operands_mapNodes (f : Expr → Expr) (b : Block) :
    (b.mapNodes f).operands = b.operands.map (·.mapNodes f) := by
  have hexit : (b.exit.mapNodes f).operand?.toList = b.exit.operand?.toList.map (·.mapNodes f) := by
    rw [Exit.operand?_mapNodes]
    cases b.exit.operand? <;> rfl
  simp [Block.operands, Block.mapNodes, hexit, flatMap_map, map_flatMap, Located.withStmt,
    Stmt.operands_mapNodes]

namespace Duplicates

variable {ds : Duplicates} {total : Nat → Nat} {settled : List (Nat × Settlement)} {p : Progress} {blocks : List Block}

variable {id : Nat}

theorem isSome_lookup_settleBlocks (h : (p.settled.lookup id).isSome = true ∨
      id ∈ blocks.flatMap Block.copyIds ∧ ds.get? id ≠ none ∧ total id ≠ 0) :
    ((ds.settleBlocks total p blocks).1.settled.lookup id).isSome = true := by
  induction blocks generalizing p with
  | nil => exact h.resolve_right fun h => absurd h.1 not_mem_nil
  | cons b rest ih =>
      have hb := settles_settleStmts ds total (ds.usesAt b) p b.stmts
      refine ih ?_
      rcases h with h | ⟨hid, hv, hread⟩
      · exact .inl (hb.isSome_lookup h)
      · rw [flatMap_cons, mem_append] at hid
        rcases hid with hid | hid
        · exact .inl (hb.isSome_lookup_of_read hid hv hread)
        · exact .inr ⟨hid, hv, hread⟩

theorem inlined_settleBlocks (hp : ∀ id value, p.settled.lookup id = some (.inlined value) → ds.get? id = some value) :
    ∀ id value, (ds.settleBlocks total p blocks).1.settled.lookup id = some (.inlined value) →
      ds.get? id = some value := by
  induction blocks generalizing p with
  | nil => exact hp
  | cons b rest ih => exact ih ((settles_settleStmts ds total (ds.usesAt b) p b.stmts).inlined hp)

theorem mem_settleBlocks {b} (hb : b ∈ (ds.settleBlocks total p blocks).2) : (∀ s ∈ b.stmts, s.stmt.copyId? = none) ∧
      ∀ e ∈ b.nodes, (∃ b' ∈ blocks, e ∈ b'.nodes) ∨ ∃ value ∈ ds.values, e ∈ value.nodes := by
  induction blocks generalizing p with
  | nil => cases hb
  | cons c rest ih =>
      rcases mem_cons.mp hb with rfl | hb
      · have hc := settles_settleStmts ds total (ds.usesAt c) p c.stmts
        refine ⟨hc.copyId?_out, fun e he => ?_⟩
        simp only [Block.nodes, mem_append, mem_flatMap] at he
        rcases he with (⟨s, hs, he⟩ | he) | he
        · refine (hc.mem_nodes_out s hs e he).imp_left fun ⟨s', hs', he'⟩ => ?_
          refine ⟨c, mem_cons_self, ?_⟩
          simp only [Block.nodes, mem_append, mem_flatMap]
          exact .inl (.inl ⟨s', hs', he'⟩)
        · refine .inl ⟨c, mem_cons_self, ?_⟩
          simp only [Block.nodes, mem_append, mem_flatMap]
          exact .inl (.inr he)
        · refine .inl ⟨c, mem_cons_self, ?_⟩
          simp only [Block.nodes, mem_append, mem_flatMap]
          exact .inr he
      · obtain ⟨hids, hnodes⟩ := ih hb
        refine ⟨hids, fun e he => ?_⟩
        exact (hnodes e he).imp_left fun ⟨b', hb', he'⟩ => ⟨b', mem_cons_of_mem _ hb', he'⟩

theorem Nested.not_mem_standIn (h : Nested settled)
    (hclosed : ∀ id value, settled.lookup id = some (.inlined value) → ∀ n, .dupLoad n ∈ value.nodes →
      (settled.lookup n).isSome = true) {depth} (hd : id < depth) (hid : (settled.lookup id).isSome = true) (n : Nat) :
    .dupLoad n ∉ (standIn settled depth id).nodes := by
  induction depth generalizing id with
  | zero => cases hd
  | succ depth ih =>
      rw [standIn_succ]
      split
      · rename_i value hvalue
        rw [Expr.mem_mapNodes_fillLoad]
        rintro ⟨m, hm, hn⟩
        have hlt := h id value hvalue m hm
        exact ih (by omega) (hclosed id value hvalue m hm) hn
      · simp [Expr.nodes]
      · rename_i hnone
        rw [hnone] at hid
        cases hid

theorem usesIn_ne_zero {nodes} (h : .dupLoad id ∈ nodes) : usesIn id nodes ≠ 0 :=
  Nat.ne_of_gt (countP_pos_iff.mpr ⟨_, h, by simp [isLoadOf]⟩)

def Reads (ds : Duplicates) (blocks : List Block) (id : Nat) : Prop :=
  (∃ b ∈ blocks, .dupLoad id ∈ b.nodes) ∨ ∃ value ∈ ds.values, .dupLoad id ∈ value.nodes

theorem totalUses_ne_zero (h : ds.Reads blocks id) : ds.totalUses blocks id ≠ 0 := by
  rcases h with ⟨b, hb, hid⟩ | ⟨value, hvalue, hid⟩
  · have huses := usesIn_ne_zero (mem_flatMap.mpr ⟨b, hb, hid⟩)
    exact fun h => huses (Nat.add_eq_zero_iff.mp h).1
  · have huses := usesIn_ne_zero (mem_flatMap.mpr ⟨value, hvalue, hid⟩)
    exact fun h => huses (Nat.add_eq_zero_iff.mp h).2

/-- Blocks with their duplicates: the blocks compute what the list holds and nothing else, and read
nothing else, and a value reads earlier ones only. -/
structure Backs (ds : Duplicates) (blocks : List Block) : Prop where
  computed : ∀ id, id ∈ blocks.flatMap Block.copyIds ↔ id < ds.values.length
  read : ∀ b ∈ blocks, ∀ id, .dupLoad id ∈ b.nodes → id < ds.values.length
  nested : ∀ id value, ds.get? id = some value → ∀ n, .dupLoad n ∈ value.nodes → n < id

theorem Backs.lt_length (h : ds.Backs blocks) (hid : ds.Reads blocks id) : id < ds.values.length := by
  rcases hid with ⟨b, hb, hid⟩ | ⟨value, hvalue, hid⟩
  · exact h.read b hb id hid
  · obtain ⟨k, hk, rfl⟩ := mem_iff_getElem.mp hvalue
    exact Nat.lt_trans (h.nested k _ (getElem?_eq_getElem hk) id hid) hk

theorem Backs.isSome_lookup (h : ds.Backs blocks) (nextTemp : UInt16) (hid : ds.Reads blocks id) :
    ((ds.settleBlocks (ds.totalUses blocks) ⟨[], nextTemp⟩ blocks).1.settled.lookup id).isSome = true := by
  have hlt := h.lt_length hid
  refine isSome_lookup_settleBlocks (.inr ⟨(h.computed id).mpr hlt, ?_, totalUses_ne_zero hid⟩)
  rw [get?, getElem?_eq_getElem hlt]
  exact Option.some_ne_none _

theorem Backs.resolve (h : ds.Backs blocks) (nextTemp : UInt16) :
    ∀ b ∈ (ds.resolve blocks nextTemp).1, (∀ s ∈ b.stmts, s.stmt.copyId? = none) ∧ ∀ id, .dupLoad id ∉ b.nodes := by
  intro b hb
  unfold Duplicates.resolve at hb
  split at hb
  · rename_i hempty
    have hnone : ds.values.length = 0 := length_eq_zero_iff.mpr (List.isEmpty_iff.mp hempty)
    refine ⟨fun s hs => ?_, fun id hid => ?_⟩
    · cases hcopy : s.stmt.copyId? with
      | none => rfl
      | some id =>
          have hid : id ∈ blocks.flatMap Block.copyIds :=
            mem_flatMap.mpr ⟨b, hb, mem_filterMap.mpr ⟨s, hs, hcopy⟩⟩
          have := (h.computed id).mp hid
          omega
    · have := h.read b hb id hid
      omega
  · obtain ⟨c, hc, rfl⟩ := mem_map.mp hb
    obtain ⟨hcopies, hnodes⟩ := mem_settleBlocks hc
    have hsettled : ∀ id, ds.Reads blocks id → _ := fun id => h.isSome_lookup nextTemp
    have hinlined : ∀ id value, (ds.settleBlocks (ds.totalUses blocks) ⟨[], nextTemp⟩ blocks).1.settled.lookup id =
        some (.inlined value) → ds.get? id = some value := inlined_settleBlocks nofun
    generalize (ds.settleBlocks (ds.totalUses blocks) ⟨[], nextTemp⟩ blocks).1 = p at hsettled hinlined ⊢
    have hnested : Nested p.settled := fun id value hvalue => h.nested id value (hinlined id value hvalue)
    have hclosed : ∀ id value, p.settled.lookup id = some (.inlined value) → ∀ n, .dupLoad n ∈ value.nodes →
        (p.settled.lookup n).isSome = true := fun id value hvalue n hn =>
      hsettled n (.inr ⟨value, List.mem_of_getElem? (hinlined id value hvalue), hn⟩)
    refine ⟨fun s hs => ?_, fun n hn => ?_⟩
    · obtain ⟨s', hs', rfl⟩ := mem_map.mp hs
      exact (Stmt.copyId?_mapNodes _ s'.stmt).trans (hcopies s' hs')
    · rw [replaceLoads_eq_fillLoad, Block.nodes_eq, Block.operands_mapNodes] at hn
      obtain ⟨_, hmap, hn⟩ := mem_flatMap.mp hn
      obtain ⟨e, he, rfl⟩ := mem_map.mp hmap
      obtain ⟨id, hid, hn⟩ := (Expr.mem_mapNodes_fillLoad e).mp hn
      have hread := hnodes (.dupLoad id) (by rw [Block.nodes_eq]; exact mem_flatMap.mpr ⟨e, he, hid⟩)
      have hlt := h.lt_length hread
      exact hnested.not_mem_standIn hclosed (by omega) (hsettled id hread) n hn

end Duplicates

end JvmLift

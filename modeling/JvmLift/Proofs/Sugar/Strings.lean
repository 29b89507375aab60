import JvmLift.Proofs.Meaning.Evaluation
import JvmLift.Proofs.Sugar.Counting
import JvmLift.Proofs.Sugar.Writers
import JvmLift.Proofs.Tree.Lists
import JvmLift.Proofs.Walk.Switches

/-!
# Switches over strings

A switch over the hash code of a string sets an index, and a switch over the index follows. They become one switch
over the string, which does the same unless a branch does more than set the index, a test stands behind a `break`, or
a label belongs to no string.
-/
namespace JvmLift.Sugar

open List Source
open JvmLift.Tree (nodesList nodesArms readKeys writtenKeys OneName Within Fewer)

universe u

variable {ν τ : Type u} {uses : VarUses} {N : List VarKey}

structure Strings (E : Evaluation ν τ) where
  string : String → ν
  hash : String → Int32
  value_hashCode : ∀ kind owner d v vars rest s, vars v.place = string s →
    E.value (.call kind owner "hashCode" d (some (.localVar v)) []) vars rest = (.ok (E.int (hash s)), rest)
  holds_equals : ∀ kind owner d v text vars rest s, vars v.place = string s →
    E.holds (.call kind owner "equals" d (some (.localVar v)) [.stringLit text]) vars rest =
      (.ok (decide (s = text)), rest)
  selects_string : ∀ text s, E.selects .string (.string text) (string s) = decide (text = s)

theorem eq_of_equalsLiteral {tmp e text} (h : equalsLiteral? tmp e = some text) :
    ∃ kind owner d v, e = .call kind owner "equals" d (some (.localVar v)) [.stringLit text] ∧ v.same tmp = true := by
  unfold equalsLiteral? at h
  split at h
  · split at h <;> cases h
    exact ⟨_, _, _, _, rfl, ‹_›⟩
  · cases h

/-! ## Tests -/

/-- Tests of a string, each of which sets the index to the number of its literal and does nothing else. A
`break` stands where no test is left, or behind an index that is set. -/
inductive Tests (tmp index : LocalVar) : Bool → StringLabels → List Tree → Prop
  | nil (last : Bool) : Tests tmp index last [] []
  | stop : Tests tmp index true [] [.breakTo none]
  | test {last : Bool} {e : Expr} {text : String} {s : Located} {v : LocalVar} {k : Int32} {stop ts : List Tree}
      {b : Option (List Tree)} {ps qs : StringLabels} (he : equalsLiteral? tmp e = some text)
      (hs : s.stmt = .store v (.intLit k)) (hv : v.same index = true) (hstop : stop = [] ∨ stop = [.breakTo none])
      (hb : Tests tmp index (last && ts.isEmpty) ps (b.getD [])) (ht : Tests tmp index last qs ts) :
      Tests tmp index last ((k, text) :: ps ++ qs) (.ifElse e (.simple s :: stop) b :: ts)

def StringLabels.insertAll (labels ps : StringLabels) : StringLabels := ps.foldl (fun l p => l.insert p.1 p.2) labels

def numberOf (s : String) (ps : StringLabels) : Option Int32 := (ps.find? (·.2 = s)).map (·.1)

theorem numberOf_append (s : String) (ps qs : StringLabels) :
    numberOf s (ps ++ qs) = (numberOf s ps).or (numberOf s qs) := by
  rw [numberOf, find?_append, Option.map_or, numberOf, numberOf]

theorem numberOf_eq_none {s ps} : numberOf s ps = none ↔ s ∉ ps.map (·.2) := by
  simp only [numberOf, Option.map_eq_none_iff, find?_eq_none, decide_eq_true_eq, mem_map, not_exists, not_and]

theorem numberOf_of_nodup {s ps qs} (h : ((ps ++ qs).map (·.2)).Nodup) :
    numberOf s ps = none ∨ numberOf s qs = none := by
  simp only [numberOf_eq_none, map_append] at h ⊢
  exact Classical.not_and_iff_not_or_not.mp fun hs => (nodup_append.mp h).2.2 s hs.1 s hs.2 rfl

namespace Tests

variable {tmp index : LocalVar} {last : Bool} {ps : StringLabels} {ts : List Tree}

theorem stringCases_eq (h : Tests tmp index last ps ts) (labels : StringLabels) :
    stringCases tmp index labels ts = some (labels.insertAll ps) := by
  induction h generalizing labels with
  | nil last => rfl
  | stop => rfl
  | @test last e text s v k stop ts b ps qs he hs hv hstop hb ht ihb iht =>
      have hset : indexSet? index (.simple s :: stop) = some k := by
        obtain ⟨stmt, _, _, _⟩ := s
        cases hs
        exact if_pos hv
      have hblock (labels : StringLabels) :
          stringCasesBlock tmp index labels b = stringCases tmp index labels (b.getD []) := by
        cases b <;> simp [stringCasesBlock, stringCases]
      simp [stringCases, stringCase, he, hset, hblock, ihb, iht, StringLabels.insertAll]

theorem le_count (hN : OneName N) (htmp : tmp.key ∈ N) (h : Tests tmp index last ps ts) (hin : Within N (nodesList ts)) :
    ps.length ≤ (readKeys (nodesList ts)).count tmp.key := by
  induction h with
  | nil last => exact Nat.zero_le _
  | stop => exact Nat.zero_le _
  | @test last e text s v k stop ts b ps qs he hs hv hstop hb ht ihb iht =>
      obtain ⟨_, _, _, w, rfl, hw⟩ := eq_of_equalsLiteral he
      have hblock : Tree.nodesBlock b = nodesList (b.getD []) := by cases b <;> rfl
      have hkey : w.key = tmp.key := hN.key_eq (hin.reads (by simp [nodesList, Tree.nodes])) htmp hw
      simp only [nodesList, Tree.nodes, hblock, Tree.within_append] at hin
      have hb := ihb (Tree.within_append.mp hin.1.tail).2
      have ht := iht hin.2
      simp [nodesList, Tree.nodes, hblock, hkey]
      omega

end Tests

abbrev TestsArms (tmp index : LocalVar) : List StringLabels → List (Arm × List Tree) → Prop :=
  List.Forall₂ fun ps arm => Tests tmp index true ps arm.2

/-! ### Runs -/

def Stores (P : List Place) (s : Located) : Prop := ∃ v e, s.stmt = .store v e ∧ v.place ∈ P

/-- Nothing is executed but stores of `P`, and the index is set to the number, if there is one. -/
structure Picks (E : Evaluation ν τ) (P : List Place) (index : LocalVar) (k : Option Int32) (x : Memory ν τ)
    (r : Source.Outcome (Memory ν τ) ν) : Prop where
  trace : ∀ s ∈ r.trace, Stores P s
  ending : r.ending = .normal ∨ r.ending = .broke none
  state : r.state = k.elim x fun k => x.set index (E.int k)

section

variable {E : Evaluation ν τ} {P : List Place} {tmp index : LocalVar} {x : Memory ν τ}

theorem Picks.done : Picks E P index none x (.done x) := ⟨by simp [Source.Outcome.done], .inl rfl, rfl⟩

theorem Picks.andThen {k k' r f} (h : Picks E P index k x r)
    (hf : r.ending = .normal → Picks E P index k' r.state (f r.state)) (hk : k = none ∨ k' = none)
    (hstop : r.ending ≠ .normal → k' = none) : Picks E P index (k.or k') x (r.andThen f) := by
  by_cases hn : r.ending = .normal
  · have hf := hf hn
    rw [Source.Outcome.andThen_of_normal hn]
    refine ⟨fun s hs => (mem_append.mp hs).elim (h.trace s) (hf.trace s), hf.ending, ?_⟩
    change (f r.state).state = _
    rw [hf.state, h.state]
    rcases hk with rfl | rfl <;> simp
  · rw [Source.Outcome.andThen_of_ne hn, hstop hn, Option.or_none]
    exact h

variable (R : Strings E) {n : Nat} {s : String} {ps : StringLabels} (hne : tmp.place ≠ index.place)
  (hP : index.place ∈ P)

theorem holds_literal {e text} (he : equalsLiteral? tmp e = some text)
    (hx : x.vars tmp.place = R.string s) : E.actions.holds e x = (.ok (decide (s = text)), x) := by
  obtain ⟨_, _, _, v, rfl, hv⟩ := eq_of_equalsLiteral he
  rw [← place_eq_of_same hv] at hx
  simp only [Evaluation.actions, Memory.lift, R.holds_equals _ _ _ _ _ _ _ _ hx]

include hne in
theorem Picks.tmp_eq {k r} (h : Picks E P index k x r) : r.state.vars tmp.place = x.vars tmp.place := by
  rw [h.state]
  cases k with
  | none => rfl
  | some k => exact Memory.set_vars_of_ne _ _ hne

include hne hP

/-- A test that holds sets the index to the number of its literal. Without a `break` at the end the run goes on
unless one holds. -/
theorem Tests.picks {last ts} (h : Tests tmp index last ps ts) (hd : (ps.map (·.2)).Nodup)
    (hx : x.vars tmp.place = R.string s) : Picks E P index (numberOf s ps) x (execList E.actions n ts x) ∧
      (last = false → numberOf s ps = none → (execList E.actions n ts x).ending = .normal) := by
  induction h generalizing x with
  | nil last => exact ⟨.done, fun _ _ => rfl⟩
  | stop => exact ⟨⟨by simp [execList, exec, Source.Outcome.andThen], .inr rfl, rfl⟩, by simp⟩
  | @test last e text st v k stop ts b ps qs he hs hv hstop hb ht ihb iht =>
      have hd' := hd
      simp only [map_append, nodup_append] at hd'
      have hone : Picks E P index (numberOf s ((k, text) :: ps)) x
            (exec E.actions n [] (.ifElse e (.simple st :: stop) b) x) ∧
          ((last && ts.isEmpty) = false → numberOf s ((k, text) :: ps) = none →
            (exec E.actions n [] (.ifElse e (.simple st :: stop) b) x).ending = .normal) := by
        simp only [exec, holds_literal R he hx, given]
        by_cases htext : s = text
        · have hstore := E.simple_store_ok (x := x) hs (E.value_intLit k _ _)
          have hnumber : numberOf s ((k, text) :: ps) = some k := by simp [numberOf, htext]
          have hend : ∃ ending, (ending = .normal ∨ ending = .broke none) ∧
              ∀ y, execList E.actions n stop y = ⟨[], y, ending⟩ := by
            rcases hstop with rfl | rfl
            · exact ⟨_, .inl rfl, fun _ => rfl⟩
            · exact ⟨_, .inr rfl, fun _ => rfl⟩
          obtain ⟨ending, hending, hend⟩ := hend
          rw [if_pos (decide_eq_true htext), execList_of_normal hstore, hnumber, hend]
          refine ⟨⟨?_, hending, Memory.set_congr x (place_eq_of_same hv) _⟩, by simp⟩
          simpa [Source.Outcome.behind] using ⟨v, _, hs, place_eq_of_same hv ▸ hP⟩
        · have hnumber : numberOf s ((k, text) :: ps) = numberOf s ps := by simp [numberOf, Ne.symm htext]
          have hblock : execBlock E.actions n b x = execList E.actions n (b.getD []) x := by cases b <;> rfl
          rw [if_neg (by simpa using htext), hnumber, hblock]
          exact ihb (nodup_cons.mp hd'.1).2 hx
      rw [execList, numberOf_append]
      have hrest := iht hd'.2.1 (by rw [hone.1.tmp_eq hne, hx])
      refine ⟨hone.1.andThen (fun _ => hrest.1) (numberOf_of_nodup hd) fun hstopped => ?_, fun hlast hnone => ?_⟩
      · -- It stops where a test holds, or where no test is left.
        cases ht with
        | nil => rfl
        | stop => rfl
        | test => exact (numberOf_of_nodup hd).resolve_left fun hnone => hstopped (hone.2 (by simp) hnone)
      · have hnone := Option.or_eq_none_iff.mp hnone
        have hnormal := hone.2 (by simp [hlast]) hnone.1
        rw [Source.Outcome.andThen_of_normal hnormal]
        exact hrest.2 hlast hnone.2

theorem picks_execArms {cases arms} (h : TestsArms tmp index cases arms)
    (hd : (cases.flatten.map (·.2)).Nodup) (hx : x.vars tmp.place = R.string s) (j : Nat)
    (hj : ∀ i ps, cases[i]? = some ps → s ∈ ps.map (·.2) → j = i) :
    Picks E P index (numberOf s cases.flatten) x (execArms E.actions n arms j x) := by
  induction h generalizing x j with
  | nil => exact .done
  | @cons ps arm cases arms htests _ ih =>
      rw [flatten_cons] at hd ⊢
      rw [numberOf_append]
      have hd' := hd
      simp only [map_append, nodup_append] at hd'
      cases j with
      | succ j =>
          have hnone : numberOf s ps = none := numberOf_eq_none.mpr fun hs => by cases hj 0 ps rfl hs
          rw [hnone]
          exact ih hd'.2.1 hx j fun i ps hi hs => Nat.succ.inj (hj (i + 1) ps hi hs)
      | zero =>
          have hrest (i : Nat) (ps : StringLabels) (hi : cases[i]? = some ps) : s ∉ ps.map (·.2) :=
            fun hs => by cases hj (i + 1) ps hi hs
          have hnone : numberOf s cases.flatten = none := numberOf_eq_none.mpr fun hs => by
            obtain ⟨p, hp, rfl⟩ := mem_map.mp hs
            obtain ⟨ps, hps, hp⟩ := mem_flatten.mp hp
            obtain ⟨i, hi⟩ := mem_iff_getElem?.mp hps
            exact hrest i ps hi (mem_map_of_mem hp)
          have hbody := (htests.picks R hne hP (n := n) hd'.1 hx).1
          refine hbody.andThen (fun _ => ?_) (.inr hnone) fun _ => hnone
          split
          · exact ih hd'.2.1 (by rw [hbody.tmp_eq hne, hx]) 0 fun i ps hi hs => absurd hs (hrest i ps hi)
          · rw [hnone]
            exact .done

end

/-! ## Labels -/

theorem nodup_insert {l : StringLabels} (h : (l.map (·.1)).Nodup) (k : Int32) (text : String) :
    ((l.insert k text).map (·.1)).Nodup := by
  refine nodup_cons.mpr ⟨by simp, h.sublist (filter_sublist.map _)⟩

theorem insertAll_spec (ps l : StringLabels) : (l.insertAll ps).length ≤ ps.length + l.length ∧
      ((l.map (·.1)).Nodup → ((l.insertAll ps).map (·.1)).Nodup) ∧
      ((l.insertAll ps).length = ps.length + l.length → ∀ p, p ∈ ps ∨ p ∈ l → p ∈ l.insertAll ps) := by
  induction ps generalizing l with
  | nil => simp [StringLabels.insertAll]
  | cons p ps ih =>
      obtain ⟨hle, hnodup, hmem⟩ := ih (l.insert p.1 p.2)
      have hlen : (l.insert p.1 p.2).length = (l.filter (·.1 ≠ p.1)).length + 1 := rfl
      have hfilter := length_filter_le (fun q => decide (q.1 ≠ p.1)) l
      have hcons : l.insertAll (p :: ps) = (l.insert p.1 p.2).insertAll ps := rfl
      rw [hcons, length_cons]
      refine ⟨by omega, fun h => hnodup (nodup_insert h _ _), fun heq q hq => hmem (by omega) q ?_⟩
      have hself : l.filter (·.1 ≠ p.1) = l := filter_sublist.eq_of_length (by omega)
      rw [StringLabels.insert]
      grind

/-! ## What the counts say -/

namespace StringWalk

/-- Every branch tests a literal and sets its number, no literal is tested twice, and every label of the second
switch is the number of one. -/
structure Tidy (w : StringWalk uses) (cases : List StringLabels) : Prop where
  tests : TestsArms w.tmp w.index cases w.hashArms
  distinct : (cases.flatten.map (·.2)).Nodup
  numbers : ∀ arm ∈ w.arms, ∀ l ∈ arm.1.labels, ∃ p ∈ cases.flatten, l = .int p.1 ∧ p.1 ≠ -1

/-- The variables that go away. -/
def places (w : StringWalk uses) : List Place := [w.tmp.place, w.index.place]

/-- They are two. What is kept reads none of them, and every literal has its own number. -/
structure Apart (w : StringWalk uses) (cases : List StringLabels) : Prop where
  distinct : w.tmp.place ≠ w.index.place
  reads : ∀ v : LocalVar, v.key ∈ readKeys w.recovered.nodes → v.place ∉ w.places
  labels : ∀ p ∈ cases.flatten, w.labels.lookup p.1 = some p.2

variable {w : StringWalk uses} {cases : List StringLabels} {t₁ t₂ : Tree}

theorem foldlM_tests {tmp index arms} (h : TestsArms tmp index cases arms) (l : StringLabels) :
    arms.foldlM (fun labels arm => stringCases tmp index labels arm.2) l =
      some (l.insertAll cases.flatten) := by
  induction h generalizing l with
  | nil => rfl
  | cons htests _ ih => simp [htests.stringCases_eq, ih, StringLabels.insertAll]

theorem le_count_tests (hN : OneName N) {tmp index arms} (htmp : tmp.key ∈ N) (h : TestsArms tmp index cases arms)
    (hin : Within N (nodesArms arms)) : cases.flatten.length ≤ (readKeys (nodesArms arms)).count tmp.key := by
  induction h with
  | nil => exact Nat.zero_le _
  | cons htests _ ih =>
      have hin := Tree.within_append.mp hin
      have hle := htests.le_count hN htmp hin.1
      have hrest := ih hin.2
      simp only [flatten_cons, length_append, nodesArms, Tree.readKeys_append, count_append]
      omega

theorem reads_perm (hprep : w.Prepares t₁ t₂) : (readKeys (nodesList [t₁, t₂, w.hashed, w.chosen])).Perm
    (w.tmp.key :: w.switched.key :: (readKeys (nodesArms w.hashArms) ++ readKeys w.recovered.nodes)) := by
  obtain ⟨kind, owner, d, hkey⟩ := w.key_eq
  refine perm_iff_count.mpr fun k => ?_
  rcases hprep with ⟨rfl, rfl⟩ | ⟨rfl, rfl⟩ <;>
    simp [nodesList, Tree.nodes, hashed, chosen, recovered, renamed, nodesArms_map, hkey, w.keep_stmt, w.reset_stmt,
      Stmt.operands, count_cons] <;> omega

theorem apart (hN : OneName N) (hprep : w.Prepares t₁ t₂) (hin : Within N (nodesList [t₁, t₂, w.hashed, w.chosen]))
    (hr : ∀ k, (readKeys (nodesList [t₁, t₂, w.hashed, w.chosen])).count k ≤ uses.readKeys.count k)
    (h : w.Tidy cases) : w.Apart cases := by
  have hread : w.tmp.key :: w.switched.key :: (readKeys (nodesArms w.hashArms) ++ readKeys w.recovered.nodes) ⊆ N :=
    fun k hk => hin.reads ((reads_perm hprep).mem_iff.mpr hk)
  simp only [cons_subset, append_subset] at hread
  obtain ⟨htN, hsN, hhN, hwN⟩ := hread
  have hiN : w.index.key ∈ N := hin.writes (by
    rcases hprep with ⟨rfl, rfl⟩ | ⟨rfl, rfl⟩ <;> simp [nodesList, Tree.nodes, w.reset_stmt, Stmt.written?])
  have hle := le_count_tests hN htN h.tests (append_subset.mpr ⟨hhN, fun k hk => hin.writes (by
    simp [nodesList, Tree.nodes, hashed, hk])⟩)
  obtain ⟨hcount, hnodup, hmem⟩ := insertAll_spec cases.flatten []
  rw [← Option.some.inj (w.labels_eq.symm.trans (foldlM_tests h.tests []))] at hcount hnodup hmem
  have ht := hr w.tmp.key
  have hi := hr w.index.key
  have hrt : uses.readKeys.count w.tmp.key = w.labels.length + 1 := w.reads_tmp
  have hri : uses.readKeys.count w.index.key = 1 := w.reads_index
  simp only [(reads_perm hprep).count_eq, count_append, count_cons, hN.key_eq hsN hiN w.switched_same,
    beq_self_eq_true, if_true, length_nil] at ht hi hcount hmem
  constructor
  · intro hp
    have hkey := key_eq_of_place hN htN hiN hp
    rw [hkey, beq_self_eq_true, if_pos rfl] at hi
    omega
  · intro v hv
    simp only [places, mem_cons, not_mem_nil, or_false, not_or]
    exact ⟨place_ne_of_count hN hwN hv htN (by omega), place_ne_of_count hN hwN hv hiN (by omega)⟩
  · exact fun p hp => (lookup_eq_some_iff_mem (hnodup nodup_nil)).mpr (hmem (by omega) p (.inl hp))

end StringWalk

/-! ## Runs -/

theorem execArms_relabel {σ} {A : Actions σ ν} {n} {g : Arm × List Tree → Arm}
    (hg : ∀ a, (g a).fallsThrough = a.1.fallsThrough) (arms : List (Arm × List Tree)) (j : Nat) (x : σ) :
    execArms A n (arms.map fun a => (g a, a.2)) j x = execArms A n arms j x := by
  induction arms generalizing j x with
  | nil => rfl
  | cons a arms ih => cases j <;> simp only [map_cons, execArms, hg, ih]

theorem related_relabeled {σ K S} {A : Actions σ ν} {n t t' x y}
    (h : ∀ own, (exec A n own t x).Related K S (exec A n own t' y)) :
    (name : Option String) → (exec A n [] (relabeled name t) x).Related K S (exec A n [] (relabeled name t') y)
  | none => h []
  | some label => (h [label]).take _

namespace StringWalk

/-- Both end in the same way and leave the same state apart from the two variables. The first one executes
stores of these and then what the second one executes. -/
structure Follows (w : StringWalk uses) (r q : Source.Outcome (Memory ν τ) ν) : Prop where
  trace : ∃ front, r.trace = front ++ q.trace ∧ ∀ s ∈ front, Stores w.places s
  ending : r.ending = q.ending
  state : r.state.Outside w.places q.state

/-- The hash code of a literal leads to the arm that tests it. -/
def Keyed (w : StringWalk uses) {E : Evaluation ν τ} (R : Strings E) (cases : List StringLabels) : Prop :=
  ∀ i ps, cases[i]? = some ps → ∀ text ∈ ps.map (·.2),
    E.actions.entry .int (E.int (R.hash text)) (w.hashArms.map (·.1)) = i

variable {w : StringWalk uses} {cases : List StringLabels} {t₁ t₂ : Tree} {E : Evaluation ν τ}
  (hw : w.Apart cases) (h : w.Tidy cases) (R : Strings E) (s : String) (n : Nat) (x : Memory ν τ)

include hw h

theorem number_eq_iff {p} (hp : p ∈ cases.flatten) (hne : p.1 ≠ -1) :
    p.1 = (numberOf s cases.flatten).getD (-1) ↔ p.2 = s := by
  cases hn : numberOf s cases.flatten with
  | none =>
      have hs := numberOf_eq_none.mp hn
      exact ⟨fun hk => absurd hk hne, fun hs' => absurd (mem_map.mpr ⟨p, hp, hs'⟩) hs⟩
  | some k =>
      obtain ⟨q, hq, rfl⟩ := Option.map_eq_some_iff.mp hn
      have hqs : q.2 = s := by simpa using find?_some hq
      have hq := mem_of_find?_eq_some hq
      constructor
      · intro hk
        have hlookup := hw.labels p hp
        rw [show p.1 = q.1 from hk, hw.labels q hq] at hlookup
        exact (Option.some.inj hlookup).symm.trans hqs
      · intro hs
        exact congrArg Prod.fst (inj_on_of_nodup_map h.distinct hp hq (hs.trans hqs.symm))

theorem entry_renamed : E.actions.entry .string (R.string s) (w.renamed.map (·.1)) =
    E.actions.entry .int (E.int ((numberOf s cases.flatten).getD (-1))) (w.arms.map (·.1)) := by
  have hselects : ∀ a ∈ w.arms, (a.1.labels.map (stringLabel w.labels)).any (E.selects .string · (R.string s)) =
      a.1.labels.any (E.selects .int · (E.int ((numberOf s cases.flatten).getD (-1)))) := by
    intro a ha
    rw [any_map, Bool.eq_iff_iff, any_eq_true, any_eq_true]
    refine exists_congr fun l => and_congr_right fun hl => ?_
    obtain ⟨p, hp, rfl, hne⟩ := h.numbers a ha l hl
    simp [stringLabel, hw.labels p hp, R.selects_string, E.selects_int, number_eq_iff hw h s hp hne]
  simp only [Actions.entry, renamed, findIdx?_map, length_map]
  exact congrArg (fun place => (Option.or place _).getD _) (findIdx?_congr hselects)

variable {n x}

/-- The hash code leads to the test of the string, which sets the index to its number. -/
theorem exec_hashed (hkeyed : w.Keyed R cases) (hx : x.vars w.tmp.place = R.string s) :
    ∃ trace, (∀ s ∈ trace, Stores w.places s) ∧ exec E.actions n [] w.hashed x =
      ⟨trace, (numberOf s cases.flatten).elim x fun k => x.set w.index (E.int k), .normal⟩ := by
  obtain ⟨kind, owner, d, hkey⟩ := w.key_eq
  have hcode : E.actions.value w.key x = (.ok (E.int (R.hash s)), x) := by
    simp only [Evaluation.actions, Memory.lift, hkey, R.value_hashCode _ _ _ _ _ _ _ hx]
  have hpicks := picks_execArms R hw.distinct (mem_cons_of_mem _ mem_cons_self) (n := n) (P := w.places)
    h.tests h.distinct hx _ fun i ps hi hs => hkeyed i ps hi s hs
  simp only [hashed, exec, hcode, given]
  generalize execArms E.actions n w.hashArms _ x = r at hpicks
  refine ⟨r.trace, hpicks.trace, ?_⟩
  rw [← hpicks.state]
  obtain ⟨trace, y, ending⟩ := r
  rcases hpicks.ending with he | he <;> cases he <;> rfl

theorem related_chosen {y} (hvalue : E.actions.value w.value x = (.ok (R.string s), y))
    {z : Memory ν τ} (hz : z.vars w.index.place = E.int ((numberOf s cases.flatten).getD (-1)))
    (hout : z.Outside w.places y) : (exec E.actions n [] w.chosen z).Related (fun _ => True)
      (Memory.Agree w.places [] fun _ => E.int 0) (exec E.actions n [] w.recovered x) := by
  have hnumber : E.actions.value (.localVar w.switched) z =
      (.ok (E.int ((numberOf s cases.flatten).getD (-1))), z) := by
    simp only [Evaluation.actions, Memory.lift, E.value_localVar, place_eq_of_same w.switched_same, hz]
  refine related_relabeled (fun own => ?_) w.name
  simp only [exec, hnumber, hvalue, given, entry_renamed hw h R s]
  rw [renamed, execArms_relabel (by exact fun _ => rfl)]
  refine (related_execArms w.arms (fun t ht => Evaluation.respects (fun _ _ => trivial) (fun v hv => ?_) (by simp)) _
    ⟨hout, by simp⟩).take _
  refine hw.reads v ?_
  simp only [recovered, renamed, readKeys_relabeled, Tree.nodes, nodesArms_map]
  exact mem_append_right _ (mem_flatMap.mpr ⟨t, ht, mem_map_of_mem hv⟩)

theorem follows_execList (hprep : w.Prepares t₁ t₂) (hkeyed : w.Keyed R cases)
    (hx : ∀ d rest, E.value w.value x.vars x.rest = (.ok d, rest) → ∃ s, d = R.string s) :
    w.Follows (execList E.actions n [t₁, t₂, w.hashed, w.chosen] x) (execList E.actions n [w.recovered] x) := by
  have hsplit : execList E.actions n [t₁, t₂, w.hashed, w.chosen] x =
      (execList E.actions n [t₁, t₂] x).andThen (execList E.actions n [w.hashed, w.chosen]) :=
    execList_append [t₁, t₂] [w.hashed, w.chosen] x
  rw [hsplit, execList_singleton]
  have hplaces : w.kept.place ∈ w.places ∧ w.index.place ∈ w.places := by
    simp [places, place_eq_of_same w.kept_same]
  cases hv : E.value w.value x.vars x.rest with
  | mk res rest =>
      have hvalue : E.actions.value w.value x = (res, { x with rest }) := by
        simp only [Evaluation.actions, Memory.lift, hv]
      obtain ⟨htrace, hcase⟩ := E.execList_either n hprep w.keep_stmt w.reset_stmt
        (place_eq_of_same w.kept_same ▸ hw.distinct)
        (fun v hv hp => hw.reads v (by simp [recovered, Tree.nodes, mem_map_of_mem hv]) (by simp [places, hp]))
        hplaces.2 hv
      generalize execList E.actions n [t₁, t₂] x = r at htrace hcase ⊢
      have hfront : ∀ s ∈ r.trace, Stores w.places s := fun s hs => by
        rcases htrace s hs with rfl | rfl
        · exact ⟨_, _, w.keep_stmt, hplaces.1⟩
        · exact ⟨_, _, w.reset_stmt, hplaces.2⟩
      rcases hcase with ⟨d, rfl, hnormal, hstate⟩ | ⟨d, rfl, hthrew, hout⟩
      · obtain ⟨s, rfl⟩ := hx d rest hv
        have htmp : r.state.vars w.tmp.place = R.string s := by
          rw [hstate, Memory.set_vars_of_ne _ _ hw.distinct, ← place_eq_of_same w.kept_same, Memory.set_vars_self]
        have hout : r.state.Outside w.places { x with rest } := by
          rw [hstate]
          exact ((Memory.Outside.refl _ _).set hplaces.1 _).set hplaces.2 _
        obtain ⟨trace, hstores, hhashed⟩ := exec_hashed hw h R s hkeyed htmp
        have hlast := related_chosen hw h R s (n := n) hvalue
          (z := (numberOf s cases.flatten).elim r.state fun k => r.state.set w.index (E.int k))
          (by cases numberOf s cases.flatten <;> simp [hstate]) (by
            cases numberOf s cases.flatten with
            | none => exact hout
            | some k => exact hout.set hplaces.2 _)
        rw [Source.Outcome.andThen_of_normal hnormal, execList, hhashed, Source.Outcome.andThen_of_normal rfl,
          execList_singleton]
        refine ⟨⟨r.trace ++ trace, ?_, fun s hs => (mem_append.mp hs).elim (hfront s) (hstores s)⟩, hlast.ending,
          hlast.state.toOutside⟩
        simp [Source.Outcome.behind, hlast.trace]
      · rw [Source.Outcome.andThen_of_ne (by simp [hthrew]), recovered,
          exec_relabeled_of_threw (by simp only [exec, hvalue]; rfl)]
        exact ⟨⟨r.trace, (append_nil _).symm, hfront⟩, hthrew, hout⟩

omit hw in
theorem renamed_labels (hw : w.Apart cases) : ∀ arm ∈ w.renamed, ∀ l ∈ arm.1.labels, ∃ text, l = .string text := by
  intro arm harm l hl
  obtain ⟨a, ha, rfl⟩ := mem_map.mp harm
  obtain ⟨l', hl', rfl⟩ := mem_map.mp hl
  obtain ⟨p, hp, rfl, -⟩ := h.numbers a ha l' hl'
  exact ⟨p.2, by simp [stringLabel, hw.labels p hp]⟩

end StringWalk

/-! ## Every position -/

theorem fewer_recoverStrings (uses : VarUses) (ts : List Tree) :
    Fewer (nodesList ts) (nodesList (recoverStrings uses ts)) := by
  fun_induction recoverStrings uses ts with
  | case1 t₁ t₂ t₃ t₄ rest t ht ih =>
      obtain ⟨w, hprep, rfl, rfl, rfl⟩ := stringSwitch?_some ht
      have hfront : Fewer (nodesList [t₁, t₂, w.hashed, w.chosen]) w.recovered.nodes := by
        refine ⟨fun k => ?_, fun k => ?_⟩
        · rw [(StringWalk.reads_perm hprep).count_eq, ← cons_append, ← cons_append, count_append]
          exact Nat.le_add_left _ _
        · rcases hprep with ⟨rfl, rfl⟩ | ⟨rfl, rfl⟩ <;>
            simp [nodesList, Tree.nodes, StringWalk.chosen, StringWalk.recovered, StringWalk.renamed,
              nodesArms_map] <;> omega
      have hall : nodesList (t₁ :: t₂ :: w.hashed :: w.chosen :: rest) =
          nodesList [t₁, t₂, w.hashed, w.chosen] ++ nodesList rest := Tree.nodesList_append [t₁, t₂, w.hashed, w.chosen] rest
      rw [hall]
      exact Fewer.compositional.append hfront ih
  | case2 t₁ t₂ t₃ t₄ rest ht ih => exact Fewer.compositional.append (Fewer.compositional.refl _) ih
  | case3 ts => exact Fewer.compositional.refl _

/-- At every position of a body in which one storage has one name, a switch over strings does what the two
switches did, if their branches set the index and do nothing else. -/
theorem follows_stringSwitch {ts : List Tree} {t₁ t₂ t₃ t₄ t : Tree}
    (hN : OneName (readKeys (nodesList ts) ++ writtenKeys (nodesList ts)))
    (hpos : Tree.Position (recoverStrings (.ofStmts ts)) [t₁, t₂, t₃, t₄] ts)
    (ht : stringSwitch? (.ofStmts ts) t₁ t₂ t₃ t₄ = some t) : (∃ w : StringWalk (.ofStmts ts), w.Finds t₁ t₂ t₃ t₄ t) ∧
      ∀ w : StringWalk (.ofStmts ts), w.Finds t₁ t₂ t₃ t₄ t → ∀ cases, w.Tidy cases →
        (∀ arm ∈ w.renamed, ∀ l ∈ arm.1.labels, ∃ text, l = .string text) ∧
        ∀ (E : Evaluation ν τ) (R : Strings E) (n : Nat) (x : Memory ν τ), w.Keyed R cases →
          (∀ d rest, E.value w.value x.vars x.rest = (.ok d, rest) → ∃ s, d = R.string s) →
          w.Follows (execList E.actions n [t₁, t₂, t₃, t₄] x) (execList E.actions n [t] x) := by
  refine ⟨stringSwitch?_some ht, fun w hfinds cases hcases => ?_⟩
  obtain ⟨hprep, rfl, rfl, rfl⟩ := hfinds
  have hfewer := Fewer.of_position (fewer_recoverStrings (.ofStmts ts)) hpos
  have hw := StringWalk.apart hN hprep (hfewer.within (Subset.refl _)) hfewer.reads hcases
  exact ⟨StringWalk.renamed_labels hcases hw,
    fun E R n x hkeyed hx => StringWalk.follows_execList hw hcases R hprep hkeyed hx⟩

def sampleStrings : Strings sample where
  string := .text
  hash s := .ofNat s.length
  value_hashCode _ _ _ v vars rest s h := by
    change (Except.ok (vars v.place).hash, rest) = _
    rw [h]
    rfl
  holds_equals _ _ _ v text vars rest s h := by
    change (Except.ok (vars v.place == .text text), rest) = _
    simp [h, Bool.beq_eq_decide_eq]
  selects_string _ _ := rfl

def textVar : LocalVar := .ofSlot 2 none .object

def textCall (name : String) (args : List Expr) : Expr :=
  .call .virtual "java/lang/String" name "" (some (.localVar textVar)) args

def isText (text : String) (found : List Tree) (other : Option (List Tree)) : Tree :=
  .ifElse (textCall "equals" [.stringLit text]) found other

def assign (v : LocalVar) (k : Int32) : Tree := .simple ⟨.store v (.intLit k), 0, 0, none⟩

/-- Texts are told apart by their length, and then by tests. -/
def hashArms (found : List Tree) : List (Arm × List Tree) :=
  [(⟨[.int 3], false, false⟩, [isText "one" found (some [isText "two" [assign indexVar 1] none]), .breakTo none]),
    (⟨[.int 4], false, false⟩, [isText "four" [assign indexVar 2] none, .breakTo none])]

def numberArms (last : Int32) : List (Arm × List Tree) :=
  [(⟨[.int 0], false, false⟩, []), (⟨[.int 1, .int last], false, true⟩, [assign sumVar 7]),
    (⟨[], true, false⟩, [.breakTo none])]

def overTexts (found : List Tree) (last : Int32) : List Tree :=
  [.simple ⟨.store textVar (.localVar (.ofSlot 0 none .object)), 0, 2, none⟩, assign indexVar (-1),
    .switch .int (textCall "hashCode" []) (hashArms found), .switch .int (.localVar indexVar) (numberArms last)]

def passing (text : String) : Memory Sample Unit where
  vars p := if p = (.slot, 0) then .text text else .int 0
  rest := ()

/-- The second one of two texts with one hash code is found. -/
theorem follows_stringSwitch_two :
    let ts := overTexts [assign indexVar 0] 2
    let q := execList sample.actions 1 (recoverStrings (.ofStmts ts) ts) (passing "two")
    q.state.vars sumVar.place = .int 7 ∧
      ∃ w : StringWalk (.ofStmts ts), w.Follows (execList sample.actions 1 ts (passing "two")) q := by
  let w : StringWalk (.ofStmts (overTexts [assign indexVar 0] 2)) := ⟨none, textVar, indexVar, textVar, indexVar,
    .localVar (.ofSlot 0 none .object), textCall "hashCode" [], ⟨_, 0, 2, none⟩, ⟨_, 0, 0, none⟩,
    hashArms [assign indexVar 0], numberArms 2, _, ⟨_, _, _, rfl⟩, rfl, rfl, rfl, rfl, rfl, rfl, rfl⟩
  have htidy : w.Tidy _ := ⟨.cons (.test rfl rfl rfl (.inl rfl) (.test rfl rfl rfl (.inl rfl) (.nil _) (.nil _)) .stop)
    (.cons (.test rfl rfl rfl (.inl rfl) (.nil _) .stop) .nil), by decide +kernel, by decide +kernel⟩
  have h := @follows_stringSwitch Sample Unit (overTexts [assign indexVar 0] 2) _ _ _ _ _
    (by unfold OneName; decide +kernel) (.here infix_rfl) rfl
  refine ⟨by decide +kernel, w,
    (h.2 w ⟨.inl ⟨rfl, rfl⟩, rfl, rfl, rfl⟩ _ htidy).2 sample sampleStrings 1 (passing "two") ?_ ?_⟩
  · rintro (_ | _ | i) ps hi <;> cases hi <;> decide +kernel
  · intro d rest hd
    cases hd
    exact ⟨_, rfl⟩

/-- Not so where a branch does more than that, or where a label is the number of no text. -/
theorem stringSwitch_untidy :
    let ran (ts : List Tree) := (execList sample.actions 1 ts (passing "one")).state.vars sumVar.place
    let recover (ts : List Tree) := recoverStrings (.ofStmts ts) ts
    let lossy := overTexts [assign indexVar 0, assign sumVar 5] 2
    ran lossy = .int 5 ∧ ran (recover lossy) = .int 0 ∧
      ∃ value arms, recover (overTexts [assign indexVar 0] 3) = [.switch .string value arms] ∧
        .int 3 ∈ arms.flatMap (·.1.labels) := by
  refine ⟨by decide +kernel, by decide +kernel, _, _, rfl, by decide +kernel⟩

end JvmLift.Sugar

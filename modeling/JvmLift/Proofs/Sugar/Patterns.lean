import JvmLift.Proofs.Tree.Relations
import JvmLift.Sugar.Basic

/-!
# What the patterns match

The statements that a pass looks for, taken apart.
-/
namespace JvmLift.Sugar

open JvmLift.Tree (nodesList readKeys writtenKeys OneName Within)

variable {u : VarUses}

variable {t : Tree} {v : LocalVar}

theorem store?_eq_some {value} (h : t.store? = some (v, value)) :
    ∃ start stop line, t = .simple ⟨.store v value, start, stop, line⟩ := by
  unfold Tree.store? at h
  split at h <;> cases h
  exact ⟨_, _, _, rfl⟩

theorem stmt?_eq_some {stmt} (h : t.stmt? = some stmt) : ∃ start stop line, t = .simple ⟨stmt, start, stop, line⟩ := by
  unfold Tree.stmt? at h
  split at h <;> cases h
  exact ⟨_, _, _, rfl⟩

theorem eq_relabeled {name t'} (h : unlabeled t = (name, t')) : t = relabeled name t' := by
  unfold unlabeled at h
  split at h <;> cases h <;> rfl

/-! ## Returned temporaries -/

theorem returned?_some (h : returned? u t = some v) :
    ∃ start stop line, t = .simple ⟨.leave (some (.localVar v)), start, stop, line⟩ ∧ u.reads v = 1 := by
  unfold returned? at h
  split at h
  · rename_i hstmt
    split at h <;> cases h
    rename_i hv
    obtain ⟨start, stop, line, rfl⟩ := stmt?_eq_some hstmt
    exact ⟨start, stop, line, rfl, hv.2⟩
  · cases h

theorem storeAsReturn?_some {t'} (h : storeAsReturn? v t = some t') :
    ∃ w value start stop line, w.same v = true ∧ t = .simple ⟨.store w value, start, stop, line⟩ ∧
    t' = .simple ⟨.leave (some value), start, stop, line⟩ := by
  unfold storeAsReturn? at h
  split at h
  · rename_i w value hstore
    split at h <;> cases h
    rename_i hsame
    obtain ⟨start, stop, line, rfl⟩ := store?_eq_some hstore
    exact ⟨w, value, start, stop, line, hsame, rfl, rfl⟩
  · cases h

/-! ## Loops over elements -/

variable {e : Expr}

theorem eq_of_isCallOn {name} (h : isCallOn name v e = true) :
    ∃ kind owner d w, e = .call kind owner name d (some (.localVar w)) [] ∧ w.same v = true := by
  unfold isCallOn at h
  split at h
  · simp only [Bool.and_eq_true, beq_iff_eq] at h
    obtain ⟨rfl, hw⟩ := h
    exact ⟨_, _, _, _, rfl, hw⟩
  · cases h

/-- A loop over an iterator: the store of the iterator, the test, and the store of an element, which may be
cast. -/
structure IteratorWalk (u : VarUses) where
  name : Option String
  iterator : LocalVar
  var : LocalVar
  ty : ErasedType
  iterable : Expr
  start : Expr
  test : Expr
  next : Expr
  fetched : Expr
  init : Located
  first : Located
  body : List Tree
  init_stmt : init.stmt = .store iterator start
  first_stmt : first.stmt = .store var fetched
  start_eq : ∃ kind owner d, start = .call kind owner "iterator" d (some iterable) []
  test_call : isCallOn "hasNext" iterator test = true
  next_call : isCallOn "next" iterator next = true
  fetched_eq : fetched = next ∨ fetched = .cast ty next
  reads_iterator : u.reads iterator = 2

def IteratorWalk.looped (w : IteratorWalk u) : Tree :=
  relabeled w.name (.whileLoop w.test (.simple w.first :: w.body))

def IteratorWalk.recovered (w : IteratorWalk u) : Tree :=
  relabeled w.name (.forEach { w.var with ty := w.ty } w.iterable w.body)

theorem iteratorLoop?_some {init looped} (h : iteratorLoop? u init looped = some t) :
    ∃ w : IteratorWalk u, init = .simple w.init ∧ looped = w.looped ∧ t = w.recovered := by
  unfold iteratorLoop? at h
  split at h
  · rename_i it kind owner d iterable name test first body hinit hloop
    split at h
    · rename_i htest
      simp only [Option.bind_eq_bind, Option.bind_eq_some_iff] at h
      obtain ⟨⟨v, fetched⟩, hfirst, h⟩ := h
      obtain ⟨_, _, _, rfl⟩ := store?_eq_some hinit
      obtain ⟨_, _, _, rfl⟩ := store?_eq_some hfirst
      rw [eq_relabeled hloop]
      dsimp only at h
      split at h
      all_goals
        split at h <;> cases h
        rename_i hnext
      · exact ⟨⟨name, it, v, _, iterable, _, test, _, _, _, _, body, rfl, rfl, ⟨kind, owner, d, rfl⟩, htest.1, hnext,
          .inr rfl, htest.2.1⟩, rfl, rfl, rfl⟩
      · exact ⟨⟨name, it, v, _, iterable, _, test, _, _, _, _, body, rfl, rfl, ⟨kind, owner, d, rfl⟩, htest.1, hnext,
          .inl rfl, htest.2.1⟩, rfl, rfl, rfl⟩
    · cases h
  · cases h

variable {array : LocalVar}

theorem eq_of_isLengthOf (h : isLengthOf array e = true) :
    ∃ v, e = .arrayLength (.localVar v) ∧ v.same array = true := by
  unfold isLengthOf at h
  split at h
  · exact ⟨_, rfl, h⟩
  · cases h

theorem eq_of_isZero (h : isZero e = true) : e = .intLit 0 := by
  unfold isZero at h
  split at h
  · rw [eq_of_beq h]
  · cases h

variable {index : LocalVar}

theorem eq_of_isBelow {length} (h : isBelow index length e = true) :
    ∃ v w, e = .compare .lt (.localVar v) (.localVar w) ∧ v.same index = true ∧ w.same length = true := by
  unfold isBelow at h
  split at h
  · exact ⟨_, _, rfl, Bool.and_eq_true_iff.mp h⟩
  · cases h

theorem eq_of_isElementOf (h : isElementOf array index e = true) :
    ∃ v w ty, e = .arrayLoad (.localVar v) (.localVar w) ty ∧ v.same array = true ∧ w.same index = true := by
  unfold isElementOf at h
  split at h
  · exact ⟨_, _, _, rfl, Bool.and_eq_true_iff.mp h⟩
  · cases h

theorem stmt_of_isStepOf {s} (h : isStepOf index (.simple s) = true) :
    ∃ v, s.stmt = .increment v 1 ∧ v.same index = true := by
  unfold isStepOf Tree.stmt? at h
  split at h
  · rename_i hs
    simp only [Bool.and_eq_true, beq_iff_eq] at h
    obtain ⟨rfl, hv⟩ := h
    exact ⟨_, Option.some.inj hs, hv⟩
  · cases h

/-- A loop over an array: the stores of the array, its length and the index, the test, the store of an
element, and the step. -/
structure ArrayWalk (u : VarUses) where
  name : Option String
  array : LocalVar
  length : LocalVar
  index : LocalVar
  var : LocalVar
  iterable : Expr
  size : Expr
  zero : Expr
  test : Expr
  element : Expr
  keep : Located
  measure : Located
  reset : Located
  fetch : Located
  step : Located
  body : List Tree
  keep_stmt : keep.stmt = .store array iterable
  measure_stmt : measure.stmt = .store length size
  reset_stmt : reset.stmt = .store index zero
  fetch_stmt : fetch.stmt = .store var element
  size_eq : isLengthOf array size = true
  zero_eq : isZero zero = true
  test_eq : isBelow index length test = true
  element_eq : isElementOf array index element = true
  step_eq : isStepOf index (.simple step) = true
  reads_array : u.reads array = 2
  reads_length : u.reads length = 1
  reads_index : u.reads index = 2
  writes_index : u.writes index = 2

def ArrayWalk.looped (w : ArrayWalk u) : Tree :=
  relabeled w.name (.whileLoop w.test (.simple w.fetch :: (w.body ++ [.simple w.step])))

def ArrayWalk.recovered (w : ArrayWalk u) : Tree := relabeled w.name (.forEach w.var w.iterable w.body)

/-- The length may be stored before the index or behind it. -/
def ArrayWalk.Prepares (w : ArrayWalk u) (t2 t3 : Tree) : Prop :=
  t2 = .simple w.measure ∧ t3 = .simple w.reset ∨ t2 = .simple w.reset ∧ t3 = .simple w.measure

theorem Cursor.note_some {c c' : Cursor} (h : c.note array t = some c') :
    ∃ v value start stop line, t = .simple ⟨.store v value, start, stop, line⟩ ∧
      (isLengthOf array value = true ∧ c' = { c with length := some v } ∨
        isZero value = true ∧ c' = { c with index := some v }) := by
  unfold Cursor.note at h
  split at h
  · rename_i v value hstore
    obtain ⟨start, stop, line, rfl⟩ := store?_eq_some hstore
    refine ⟨v, value, start, stop, line, rfl, ?_⟩
    split at h
    · cases h
      exact .inl ⟨‹_›, rfl⟩
    · split at h <;> cases h
      exact .inr ⟨‹_›, rfl⟩
  · cases h

theorem eq_simple_of_isStepOf (h : isStepOf index t = true) : ∃ s, t = .simple s := by
  unfold isStepOf at h
  split at h
  · obtain ⟨_, _, _, rfl⟩ := stmt?_eq_some ‹_›
    exact ⟨_, rfl⟩
  · cases h

theorem arrayLoop?_some {t1 t2 t3 t4 : Tree} (h : arrayLoop? u t1 t2 t3 t4 = some t) :
    ∃ w : ArrayWalk u, t1 = .simple w.keep ∧ w.Prepares t2 t3 ∧ t4 = w.looped ∧ t = w.recovered := by
  unfold arrayLoop? at h
  simp only [Option.bind_eq_bind, Option.bind_eq_some_iff] at h
  obtain ⟨⟨array, iterable⟩, hkeep, c1, hc1, c2, hc2, length, hlength, index, hindex, h⟩ := h
  obtain ⟨_, _, _, rfl⟩ := store?_eq_some hkeep
  obtain ⟨v2, value2, _, _, _, rfl, hv2⟩ := Cursor.note_some hc1
  obtain ⟨v3, value3, _, _, _, rfl, hv3⟩ := Cursor.note_some hc2
  split at h
  · rename_i name test first second rest hloop
    simp only [Option.bind_eq_some_iff] at h
    obtain ⟨last, hlast, ⟨v, element⟩, hfirst, h⟩ := h
    split at h <;> cases h
    rename_i hall
    obtain ⟨htest, helement, hstep, hra, hrl, hri, hwi⟩ := hall
    obtain ⟨_, _, _, rfl⟩ := store?_eq_some hfirst
    obtain ⟨step, rfl⟩ := eq_simple_of_isStepOf hstep
    obtain ⟨body, hbody⟩ := List.getLast?_eq_some_iff.mp hlast
    rw [eq_relabeled hloop, hbody, List.dropLast_concat]
    rcases hv2 with ⟨hsize, rfl⟩ | ⟨hzero, rfl⟩ <;> rcases hv3 with ⟨hsize', rfl⟩ | ⟨hzero', rfl⟩ <;>
      cases hlength <;> cases hindex
    · exact ⟨⟨name, array, _, _, v, iterable, _, _, test, element, _, _, _, _, step, body, rfl, rfl, rfl, rfl, hsize,
        hzero', htest, helement, hstep, hra, hrl, hri, hwi⟩, rfl, .inl ⟨rfl, rfl⟩, rfl, rfl⟩
    · exact ⟨⟨name, array, _, _, v, iterable, _, _, test, element, _, _, _, _, step, body, rfl, rfl, rfl, rfl, hsize',
        hzero, htest, helement, hstep, hra, hrl, hri, hwi⟩, rfl, .inr ⟨rfl, rfl⟩, rfl, rfl⟩
  · cases h

/-! ## Counting loops -/

theorem countingLoop?_some {init looped} (h : countingLoop? init looped = some t) :
    ∃ name test front start update, init = .simple start ∧
      looped = relabeled name (.whileLoop test (front ++ [.simple update])) ∧
      Tree.continuesIn name false (front ++ [.simple update]) = false ∧
      t = relabeled name (.forLoop (some (.simple start)) test (some (.simple update)) front) := by
  unfold countingLoop? at h
  split at h
  · rename_i name test body hloop
    split at h
    · cases h
    · simp only [Option.bind_eq_bind, Option.bind_eq_some_iff] at h
      obtain ⟨update, hupdate, counter, hcounter, ⟨v, _⟩, hstore, h⟩ := h
      split at h <;> cases h
      obtain ⟨_, _, _, rfl⟩ := store?_eq_some hstore
      obtain ⟨update, rfl⟩ : ∃ s, update = .simple s := by
        cases hu : update.stmt? with
        | none => simp [counter?, hu] at hcounter
        | some stmt =>
            obtain ⟨_, _, _, rfl⟩ := stmt?_eq_some hu
            exact ⟨_, rfl⟩
      obtain ⟨front, rfl⟩ := List.getLast?_eq_some_iff.mp hupdate
      rw [List.dropLast_concat]
      exact ⟨name, test, front, _, update, rfl, eq_relabeled hloop, by simp_all, rfl⟩
  · cases h

/-! ## Switches over strings -/

/-- Two switches: the stores of the string and the index, a switch over the hash code and one over the index. -/
structure StringWalk (u : VarUses) where
  name : Option String
  tmp : LocalVar
  index : LocalVar
  kept : LocalVar
  switched : LocalVar
  value : Expr
  key : Expr
  keep : Located
  reset : Located
  hashArms : List (Arm × List Tree)
  arms : List (Arm × List Tree)
  labels : StringLabels
  key_eq : ∃ kind owner d, key = .call kind owner "hashCode" d (some (.localVar tmp)) []
  keep_stmt : keep.stmt = .store kept value
  reset_stmt : reset.stmt = .store index (.intLit (-1))
  kept_same : kept.same tmp = true
  switched_same : switched.same index = true
  labels_eq : hashArms.foldlM (fun labels arm => stringCases tmp index labels arm.2) [] = some labels
  reads_tmp : u.reads tmp = labels.length + 1
  reads_index : u.reads index = 1

namespace StringWalk

def hashed (w : StringWalk u) : Tree := .switch .int w.key w.hashArms

def chosen (w : StringWalk u) : Tree := relabeled w.name (.switch .int (.localVar w.switched) w.arms)

def renamed (w : StringWalk u) : List (Arm × List Tree) :=
  w.arms.map fun a => ({ a.1 with labels := a.1.labels.map (stringLabel w.labels) }, a.2)

def recovered (w : StringWalk u) : Tree := relabeled w.name (.switch .string w.value w.renamed)

/-- The string may be stored before the index or behind it. -/
def Prepares (w : StringWalk u) (t1 t2 : Tree) : Prop :=
  t1 = .simple w.keep ∧ t2 = .simple w.reset ∨ t1 = .simple w.reset ∧ t2 = .simple w.keep

def Finds (w : StringWalk u) (t1 t2 t3 t4 t : Tree) : Prop :=
  w.Prepares t1 t2 ∧ t3 = w.hashed ∧ t4 = w.chosen ∧ t = w.recovered

end StringWalk

theorem Subject.note_some {tmp} {c c' : Subject} {t} (h : c.note tmp t = some c') :
    ∃ v value start stop line, t = .simple ⟨.store v value, start, stop, line⟩ ∧
      (v.same tmp = true ∧ c' = { c with value := some value } ∨
        value = .intLit (-1) ∧ c' = { c with index := some v }) := by
  unfold Subject.note at h
  split at h
  · rename_i v value hstore
    obtain ⟨start, stop, line, rfl⟩ := store?_eq_some hstore
    refine ⟨v, value, start, stop, line, rfl, ?_⟩
    split at h
    · cases h
      exact .inl ⟨‹_›, rfl⟩
    · split at h
      · split at h <;> cases h
        rename_i hk
        exact .inr ⟨by rw [hk], rfl⟩
      · cases h
  · cases h

theorem stringSwitch?_some {t1 t2 t3 t4 t} (h : stringSwitch? u t1 t2 t3 t4 = some t) :
    ∃ w : StringWalk u, w.Finds t1 t2 t3 t4 t := by
  unfold stringSwitch? at h
  simp only [Option.bind_eq_bind, Option.bind_eq_some_iff] at h
  obtain ⟨⟨tmp, hashArms⟩, hhash, c1, hc1, c2, hc2, value, hvalue, index, hindex, labels, hlabels, h⟩ := h
  obtain ⟨v1, value1, _, _, _, rfl, hv1⟩ := Subject.note_some hc1
  obtain ⟨v2, value2, _, _, _, rfl, hv2⟩ := Subject.note_some hc2
  have hswitch : ∃ kind owner d, t3 = .switch .int (.call kind owner "hashCode" d (some (.localVar tmp)) []) hashArms := by
    unfold hashSwitch? at hhash
    split at hhash <;> cases hhash
    exact ⟨_, _, _, rfl⟩
  obtain ⟨kind, owner, d, rfl⟩ := hswitch
  split at h
  · cases h
  rename_i hreads
  obtain ⟨hrt, hri⟩ := not_or.mp hreads
  split at h
  · rename_i name switched arms hloop
    split at h <;> cases h
    rename_i hsame
    rw [eq_relabeled hloop]
    rcases hv1 with ⟨hs, rfl⟩ | ⟨rfl, rfl⟩ <;> rcases hv2 with ⟨hs, rfl⟩ | ⟨rfl, rfl⟩ <;>
      cases hvalue <;> cases hindex
    · exact ⟨⟨name, tmp, _, _, switched, _, _, _, _, hashArms, arms, labels, ⟨kind, owner, d, rfl⟩, rfl, rfl, hs,
        hsame, hlabels, not_not.mp hrt, not_not.mp hri⟩, .inl ⟨rfl, rfl⟩, rfl, rfl, rfl⟩
    · exact ⟨⟨name, tmp, _, _, switched, _, _, _, _, hashArms, arms, labels, ⟨kind, owner, d, rfl⟩, rfl, rfl, hs,
        hsame, hlabels, not_not.mp hrt, not_not.mp hri⟩, .inr ⟨rfl, rfl⟩, rfl, rfl, rfl⟩
  · cases h

/-! ## Variables of the loops -/

section

attribute [local simp] Tree.nodes Tree.nodesList Tree.nodesBlock Tree.nodesPart Stmt.operands Stmt.written?
  List.count_append List.count_cons

@[simp] theorem readKeys_relabeled (name : Option String) (t : Tree) :
    readKeys (relabeled name t).nodes = readKeys t.nodes := by
  cases name <;> simp [relabeled]

@[simp] theorem writtenKeys_relabeled (name : Option String) (t : Tree) :
    writtenKeys (relabeled name t).nodes = writtenKeys t.nodes := by
  cases name <;> simp [relabeled]

variable {N : List VarKey} (hN : OneName N) (k : VarKey)

include hN in
theorem IteratorWalk.count_reads (w : IteratorWalk u) (hin : Within N (nodesList [.simple w.init, w.looped])) :
    (readKeys (nodesList [.simple w.init, w.looped])).count k =
      [w.iterator.key, w.iterator.key].count k + (readKeys w.recovered.nodes).count k := by
  obtain ⟨kind, owner, d, hstart⟩ := w.start_eq
  obtain ⟨_, _, _, v1, htest, hsame1⟩ := eq_of_isCallOn w.test_call
  obtain ⟨_, _, _, v2, hnext, hsame2⟩ := eq_of_isCallOn w.next_call
  have hfetched : w.fetched.vars = [v2] := by
    rcases w.fetched_eq with h | h <;> simp [h, hnext]
  have hit : w.iterator.key ∈ N := hin.writes (by simp [w.init_stmt])
  have hv1 : v1.key = w.iterator.key := hN.key_eq (hin.reads (by simp [looped, htest])) hit hsame1
  have hv2 : v2.key = w.iterator.key :=
    hN.key_eq (hin.reads (by simp [looped, w.first_stmt, hfetched])) hit hsame2
  simp [looped, recovered, w.init_stmt, w.first_stmt, hstart, htest, hfetched, hv1, hv2]
  omega

theorem IteratorWalk.count_writes (w : IteratorWalk u) : (writtenKeys (nodesList [.simple w.init, w.looped])).count k =
      [w.iterator.key].count k + (writtenKeys w.recovered.nodes).count k := by
  have hvar : LocalVar.key { w.var with ty := w.ty } = w.var.key := rfl
  simp [looped, recovered, w.init_stmt, w.first_stmt, hvar]
  omega

include hN in
theorem ArrayWalk.count_reads (w : ArrayWalk u) {t2 t3} (hprep : w.Prepares t2 t3)
    (hin : Within N (nodesList [.simple w.keep, t2, t3, w.looped])) :
    (readKeys (nodesList [.simple w.keep, t2, t3, w.looped])).count k =
      [w.array.key, w.array.key, w.length.key, w.index.key, w.index.key].count k +
        (readKeys w.recovered.nodes).count k := by
  obtain ⟨a1, hsize, ha1⟩ := eq_of_isLengthOf w.size_eq
  obtain ⟨k1, n1, htest, hk1, hn1⟩ := eq_of_isBelow w.test_eq
  obtain ⟨a2, k2, ty, helement, ha2, hk2⟩ := eq_of_isElementOf w.element_eq
  obtain ⟨k3, hstep, -⟩ := stmt_of_isStepOf w.step_eq
  have hzero := eq_of_isZero w.zero_eq
  rcases hprep with ⟨rfl, rfl⟩ | ⟨rfl, rfl⟩
  all_goals
    have ha : w.array.key ∈ N := hin.writes (by simp [w.keep_stmt])
    have hn : w.length.key ∈ N := hin.writes (by simp [w.measure_stmt])
    have hk : w.index.key ∈ N := hin.writes (by simp [w.reset_stmt])
    have ha1 := hN.key_eq (hin.reads (by simp [w.measure_stmt, hsize])) ha ha1
    have hn1 := hN.key_eq (hin.reads (by simp [looped, htest])) hn hn1
    have hk1 := hN.key_eq (hin.reads (by simp [looped, htest])) hk hk1
    have ha2 := hN.key_eq (hin.reads (by simp [looped, w.fetch_stmt, helement])) ha ha2
    have hk2 := hN.key_eq (hin.reads (by simp [looped, w.fetch_stmt, helement])) hk hk2
    simp [looped, recovered, Tree.nodesList_append, w.keep_stmt, w.measure_stmt, w.reset_stmt, w.fetch_stmt, hsize,
      hzero, htest, helement, hstep, ha1, hn1, hk1, ha2, hk2]
    omega

include hN in
theorem ArrayWalk.count_writes (w : ArrayWalk u) {t2 t3} (hprep : w.Prepares t2 t3)
    (hin : Within N (nodesList [.simple w.keep, t2, t3, w.looped])) :
    (writtenKeys (nodesList [.simple w.keep, t2, t3, w.looped])).count k =
      [w.array.key, w.length.key, w.index.key, w.index.key].count k + (writtenKeys w.recovered.nodes).count k := by
  obtain ⟨k3, hstep, hk3⟩ := stmt_of_isStepOf w.step_eq
  rcases hprep with ⟨rfl, rfl⟩ | ⟨rfl, rfl⟩
  all_goals
    have hk3 := hN.key_eq (hin.writes (by simp [looped, Tree.nodesList_append, hstep]))
      (hin.writes (by simp [w.reset_stmt])) hk3
    simp [looped, recovered, Tree.nodesList_append, w.keep_stmt, w.measure_stmt, w.reset_stmt, w.fetch_stmt, hstep, hk3]
    omega

end

theorem related_recoverForEach {Q R} (hR : Tree.Compositional Q R)
    (hiterator : ∀ w : IteratorWalk u, Q (nodesList [.simple w.init, w.looped]) →
      R (nodesList [.simple w.init, w.looped]) w.recovered.nodes)
    (harray : ∀ (w : ArrayWalk u) {t2 t3 : Tree}, w.Prepares t2 t3 → Q (nodesList [.simple w.keep, t2, t3, w.looped]) →
      R (nodesList [.simple w.keep, t2, t3, w.looped]) w.recovered.nodes)
    (ts : List Tree) (h : Q (nodesList ts)) : R (nodesList ts) (nodesList (recoverForEach u ts)) := by
  have hfound {front rest rest' : List Tree} {t : Tree} (ht : Q (nodesList front) → R (nodesList front) t.nodes)
      (h : Q (nodesList (front ++ rest))) (ih : Q (nodesList rest) → R (nodesList rest) (nodesList rest')) :
      R (nodesList (front ++ rest)) (nodesList (t :: rest')) := by
    rw [Tree.nodesList_append] at h ⊢
    exact hR.append (ht (hR.split h).1) (ih (hR.split h).2)
  have hpair {t1 t2 t : Tree} {rest rest' : List Tree} (ht : iteratorLoop? u t1 t2 = some t) :
      Q (nodesList ([t1, t2] ++ rest)) → (Q (nodesList rest) → R (nodesList rest) (nodesList rest')) →
        R (nodesList ([t1, t2] ++ rest)) (nodesList (t :: rest')) := by
    obtain ⟨w, rfl, rfl, rfl⟩ := iteratorLoop?_some ht
    exact hfound (hiterator w)
  have hcons {t1 : Tree} {rest rest' : List Tree} :
      Q (nodesList ([t1] ++ rest)) → (Q (nodesList rest) → R (nodesList rest) (nodesList rest')) →
        R (nodesList ([t1] ++ rest)) (nodesList (t1 :: rest')) :=
    hfound fun _ => by simpa [nodesList] using hR.refl t1.nodes
  fun_induction recoverForEach u ts with
  | case1 t1 t2 t3 t4 rest t ht ih => exact hpair ht h ih
  | case2 t1 t2 t3 t4 rest _ t ht ih =>
      obtain ⟨w, rfl, hprep, rfl, rfl⟩ := arrayLoop?_some ht
      exact hfound (harray w hprep) h ih
  | case3 t1 t2 t3 t4 rest _ _ ih => exact hcons h ih
  | case4 t1 t2 rest t _ ht ih => exact hpair ht h ih
  | case5 t1 t2 rest t _ ih => exact hcons h ih
  | case6 ts => exact hR.refl _

def arrayVar : LocalVar := .ofSlot 2 none (.array .int)

def lengthVar : LocalVar := .ofSlot 3 none .int

def indexVar : LocalVar := .ofSlot 4 none .int

def elementVar : LocalVar := .ofSlot 5 none .int

def sumVar : LocalVar := .ofSlot 1 (some "sum") .int

def loopOver (body : List Tree) : List Tree :=
  [.simple ⟨.store arrayVar (.localVar (.ofSlot 0 none (.array .int))), 0, 2, none⟩,
    .simple ⟨.store lengthVar (.arrayLength (.localVar arrayVar)), 2, 5, none⟩,
    .simple ⟨.store indexVar (.intLit 0), 5, 7, none⟩,
    .whileLoop (.compare .lt (.localVar indexVar) (.localVar lengthVar))
      (.simple ⟨.store elementVar (.arrayLoad (.localVar arrayVar) (.localVar indexVar) .int), 7, 11, none⟩ ::
        (body ++ [.simple ⟨.increment indexVar 1, 14, 17, none⟩]))]

def addElement : Located :=
  ⟨.store sumVar (.binary .add .int (.localVar sumVar) (.localVar elementVar)), 11, 14, none⟩

end JvmLift.Sugar

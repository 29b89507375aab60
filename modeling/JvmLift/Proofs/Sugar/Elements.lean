import JvmLift.Proofs.Meaning.Evaluation
import JvmLift.Proofs.Sugar.Counting
import JvmLift.Proofs.Tree.Lists

/-!
# Loops over arrays

A loop that walks over an array with an index becomes a loop over its elements. Both do the same unless a statement
continues the loop or sets the array or its length, which nothing looks for.
-/
namespace JvmLift.Sugar

open List

open Source
open JvmLift.Tree (nodesList readKeys writtenKeys OneName Within Fewer)

universe u

variable {ν τ : Type u}

/-- Values that are arrays. A cursor stands in front of an element. -/
structure Arrays (E : Evaluation ν τ) where
  IsArray : ν → Prop
  length : ν → τ → Except ν Int32 × τ
  element : ν → Int32 → τ → Except ν ν × τ
  cursor : ν → Int32 → Int32 → ν
  value_arrayLength : ∀ v vars rest, IsArray (vars v.place) →
    E.value (.arrayLength (.localVar v)) vars rest = (length (vars v.place) rest).map (·.map E.int) id
  value_arrayLoad : ∀ v w ty vars rest i, IsArray (vars v.place) → vars w.place = E.int i →
    E.value (.arrayLoad (.localVar v) (.localVar w) ty) vars rest = element (vars v.place) i rest
  iterate_array : ∀ a rest, IsArray a → E.iterate a rest = (length a rest).map (·.map (cursor a 0)) id
  next_cursor : ∀ a i n rest, IsArray a → E.next (cursor a i n) rest =
    if i < n then (element a i rest).map (·.map fun d => some (d, cursor a (i + 1) n)) id else (.ok none, rest)

variable {uses : VarUses} {N : List VarKey}

namespace ArrayWalk

/-! ## What the counts say -/

def places (w : ArrayWalk uses) : List Place := [w.array.place, w.length.place, w.index.place]

/-- They are three. What is kept reads none of them and does not set the index. -/
structure Apart (w : ArrayWalk uses) : Prop where
  distinct : w.places.Nodup
  var : w.var.place ≠ w.index.place
  reads : ∀ t ∈ nodesList w.body, ∀ v ∈ t.ownReads, v.place ∉ w.places
  writes : ∀ t ∈ nodesList w.body, ∀ v ∈ t.ownWrites, v.place ≠ w.index.place

variable {t₂ t₃ : Tree}

theorem apart (hN : OneName N) (w : ArrayWalk uses) (hprep : w.Prepares t₂ t₃)
    (hin : Within N (nodesList [.simple w.keep, t₂, t₃, w.looped]))
    (hr : ∀ k, (readKeys (nodesList [.simple w.keep, t₂, t₃, w.looped])).count k ≤ uses.readKeys.count k)
    (hw : ∀ k, (writtenKeys (nodesList [.simple w.keep, t₂, t₃, w.looped])).count k ≤ uses.writtenKeys.count k) :
    w.Apart := by
  simp only [w.count_reads hN _ hprep hin] at hr
  simp only [w.count_writes hN _ hprep hin] at hw
  have hra : uses.readKeys.count w.array.key = 2 := w.reads_array
  have hrn : uses.readKeys.count w.length.key = 1 := w.reads_length
  have hrk : uses.readKeys.count w.index.key = 2 := w.reads_index
  have hwk : uses.writtenKeys.count w.index.key = 2 := w.writes_index
  obtain ⟨hra0, hrn0, hrk0, hwk0⟩ : (readKeys w.recovered.nodes).count w.array.key = 0 ∧
      (readKeys w.recovered.nodes).count w.length.key = 0 ∧ (readKeys w.recovered.nodes).count w.index.key = 0 ∧
      (writtenKeys w.recovered.nodes).count w.index.key = 0 := by grind
  have hkeys : w.array.key ≠ w.length.key ∧ w.array.key ≠ w.index.key ∧ w.length.key ≠ w.index.key := by grind
  have hreads : readKeys w.recovered.nodes ⊆ N := fun k hk => by
    refine hin.reads (count_pos_iff.mp ?_)
    have := count_pos_iff.mpr hk
    rw [w.count_reads hN k hprep hin]
    omega
  have hwrites : [w.array.key, w.length.key, w.index.key] ++ writtenKeys w.recovered.nodes ⊆ N := fun k hk => by
    refine hin.writes (count_pos_iff.mp ?_)
    have := count_pos_iff.mpr hk
    rw [w.count_writes hN k hprep hin]
    simp only [count_append, count_cons] at this ⊢
    omega
  have haN : w.array.key ∈ N := hwrites (by simp)
  have hnN : w.length.key ∈ N := hwrites (by simp)
  have hkN : w.index.key ∈ N := hwrites (by simp)
  have hset {v : LocalVar} (hv : v.key ∈ writtenKeys w.recovered.nodes) : v.place ≠ w.index.place :=
    place_ne_of_count hN (fun _ h => hwrites (mem_append_right _ h)) hv hkN hwk0
  simp only [recovered, writtenKeys_relabeled, Tree.nodes, Tree.writtenKeys_cons, mem_append] at hset
  constructor
  · have hne {v v' : LocalVar} (hv : v.key ∈ N) (hv' : v'.key ∈ N) (h : v.key ≠ v'.key) : v.place ≠ v'.place :=
      fun hp => h (key_eq_of_place hN hv hv' hp)
    simpa [places] using ⟨⟨hne haN hnN hkeys.1, hne haN hkN hkeys.2.1⟩, hne hnN hkN hkeys.2.2⟩
  · exact hset (.inl (by simp))
  · intro t ht v hv
    have hmem : v.key ∈ readKeys w.recovered.nodes := by
      simp only [recovered, readKeys_relabeled]
      exact mem_append_right _ (mem_flatMap.mpr ⟨t, ht, mem_map_of_mem hv⟩)
    simp only [places, mem_cons, not_mem_nil, or_false, not_or]
    exact ⟨place_ne_of_count hN hreads hmem haN hra0, place_ne_of_count hN hreads hmem hnN hrn0,
      place_ne_of_count hN hreads hmem hkN hrk0⟩
  · exact fun t ht v hv => hset (.inr (mem_flatMap.mpr ⟨t, ht, mem_map_of_mem hv⟩))

/-! ## Runs -/

def mentions (w : ArrayWalk uses) (s : Located) : Bool :=
  ((Tree.simple s).ownReads ++ (Tree.simple s).ownWrites).any (w.places.contains ·.place)

theorem mentions_iff {w : ArrayWalk uses} {s} : w.mentions s = true ↔
    ∃ v ∈ (Tree.simple s).ownReads ++ (Tree.simple s).ownWrites, v.place ∈ w.places := by
  simp only [mentions, any_eq_true, contains_iff_mem]

/-- Nothing continues the loop or sets the array or its length. -/
structure Undisturbed (w : ArrayWalk uses) : Prop where
  continues : Tree.continuesIn w.name false w.body = false
  writes : ∀ v ∈ w.var :: (nodesList w.body).flatMap Tree.ownWrites,
    v.place ≠ w.array.place ∧ v.place ≠ w.length.place

/-- Both end in the same way. Apart from the three variables they leave the same state, and the second one
executes what the first one does without mention of them. -/
structure Follows (w : ArrayWalk uses) (r q : Source.Outcome (Memory ν τ) ν) : Prop where
  trace : r.trace.filter (!w.mentions ·) = q.trace
  ending : r.ending = q.ending
  state : r.state.Outside w.places q.state

variable {w : ArrayWalk uses} {r q : Source.Outcome (Memory ν τ) ν}

theorem Follows.take (h : w.Follows r q) (taken : Source.Ending ν → Bool) : w.Follows (r.take taken) (q.take taken) := by
  unfold Source.Outcome.take
  rw [h.ending]
  split
  · exact ⟨h.trace, rfl, h.state⟩
  · exact h

theorem Follows.behind (h : w.Follows r q) {t t'} (ht : t.filter (!w.mentions ·) = t') :
    w.Follows (r.behind t) (q.behind t') :=
  ⟨by simp [Source.Outcome.behind, ht, h.trace], h.ending, h.state⟩

theorem Follows.andThen_take (h : w.Follows r q) {f g taken}
    (hf : q.ending = .normal → w.Follows ((f r.state).take taken) ((g q.state).take taken)) :
    w.Follows ((r.andThen f).take taken) ((q.andThen g).take taken) := by
  by_cases hn : q.ending = .normal
  · rw [Source.Outcome.andThen_of_normal hn, Source.Outcome.andThen_of_normal (h.ending.trans hn),
      Source.Outcome.take_behind, Source.Outcome.take_behind]
    exact (hf hn).behind h.trace
  · rw [Source.Outcome.andThen_of_ne hn, Source.Outcome.andThen_of_ne (by rwa [h.ending])]
    exact h.take taken

theorem follows_relabeled {A : Actions (Memory ν τ) ν} {m name t t' x y}
    (h : w.Follows (exec A m name.toList t x) (exec A m name.toList t' y)) :
    w.Follows (exec A m [] (relabeled name t) x) (exec A m [] (relabeled name t') y) := by
  cases name with
  | none => exact h
  | some label => exact h.take _

variable {E : Evaluation ν τ}

def holding (w : ArrayWalk uses) (E : Evaluation ν τ) (a : ν) (n i : Int32) (p : Place) : ν :=
  if p = w.array.place then a else if p = w.length.place then E.int n else E.int i

/-- The loop with the index stands in front of an element, and the other one is in the same state. -/
abbrev InFront (w : ArrayWalk uses) (E : Evaluation ν τ) (a : ν) (n i : Int32) : Memory ν τ → Memory ν τ → Prop :=
  Memory.Agree w.places w.places (w.holding E a n i)

theorem inFront_iff (hw : w.Apart) {a n i x y} :
    w.InFront E a n i x y ↔ x.Outside w.places y ∧ x.vars w.array.place = a ∧ x.vars w.length.place = E.int n ∧
      x.vars w.index.place = E.int i := by
  have hd := hw.distinct
  simp only [places] at hd
  refine ⟨fun h => ⟨h.toOutside, ?_⟩, fun h => ⟨h.1, ?_⟩⟩
  · have hf := h.fixed
    simp only [places, holding] at hf
    grind
  · simp only [places, holding]
    grind

section

variable (hw : w.Apart) {a : ν} {n i : Int32} {x y : Memory ν τ}

include hw

/-! ### One round -/

theorem test_inFront (h : w.InFront E a n i x y) :
    E.actions.test w.test x = ⟨[], x, if i < n then .normal else .broke none⟩ := by
  obtain ⟨-, -, hn, hi⟩ := (inFront_iff hw).mp h
  obtain ⟨k1, n1, htest, hk1, hn1⟩ := eq_of_isBelow w.test_eq
  rw [← place_eq_of_same hk1] at hi
  rw [← place_eq_of_same hn1] at hn
  simp [Actions.test, Evaluation.actions, Memory.lift, htest, E.holds_compare _ _ _ _ _ _ _ hi hn, given, CmpOp.ofInts]

theorem step_inFront (h : w.InFront E a n i x y) : ∃ x', E.actions.simple w.step x = ⟨[w.step], x', .normal⟩ ∧
    w.InFront E a n (i + 1) x' y := by
  obtain ⟨⟨hrest, hout⟩, ha, hn, hi⟩ := (inFront_iff hw).mp h
  obtain ⟨k3, hstep, hk3⟩ := stmt_of_isStepOf w.step_eq
  have hd := hw.distinct
  simp only [places, nodup_cons, mem_cons, not_mem_nil, or_false, not_or] at hd
  refine ⟨_, E.simple_increment hstep, (inFront_iff hw).mpr ?_⟩
  rw [place_eq_of_same hk3, hi, E.increase_int, Memory.set_congr x (place_eq_of_same hk3)]
  refine ⟨⟨hrest, fun p hp => ?_⟩, ?_, ?_, Memory.set_vars_self ..⟩
  · rw [Memory.set_vars_of_ne _ _ (fun h => hp (by simp [places, h])), hout p hp]
  · rw [Memory.set_vars_of_ne _ _ hd.1.2, ha]
  · rw [Memory.set_vars_of_ne _ _ hd.2.1, hn]

theorem element_inFront (R : Arrays E) (h : w.InFront E a n i x y) (ha : R.IsArray a) :
    E.value w.element x.vars x.rest = R.element a i y.rest := by
  obtain ⟨⟨hrest, -⟩, hxa, -, hi⟩ := (inFront_iff hw).mp h
  obtain ⟨a2, k2, ty, helement, ha2, hk2⟩ := eq_of_isElementOf w.element_eq
  rw [← place_eq_of_same ha2] at hxa
  rw [← place_eq_of_same hk2] at hi
  rw [helement, R.value_arrayLoad _ _ _ _ _ _ (hxa ▸ ha) hi, hxa, hrest]

omit hw in
theorem next_behind (R : Arrays E) (ha : R.IsArray a) (hi : ¬ i < n) (y : Memory ν τ) :
    E.actions.next w.var (R.cursor a i n) y = (.ok none, y) := by
  simp only [Evaluation.actions, Evaluation.next?, R.next_cursor a i n _ ha, if_neg hi]

theorem fetch_inFront (hu : w.Undisturbed) (R : Arrays E) (h : w.InFront E a n i x y) (ha : R.IsArray a) (hi : i < n) :
    (∃ x' y', E.actions.simple w.fetch x = ⟨[w.fetch], x', .normal⟩ ∧
      E.actions.next w.var (R.cursor a i n) y = (.ok (some (R.cursor a (i + 1) n)), y') ∧ w.InFront E a n i x' y') ∨
    ∃ d x' y', E.actions.simple w.fetch x = ⟨[w.fetch], x', .threw d⟩ ∧
      E.actions.next w.var (R.cursor a i n) y = (.error d, y') ∧ x'.Outside w.places y' := by
  have hfetch := element_inFront hw R h ha
  have hnext : E.actions.next w.var (R.cursor a i n) y = E.next? w.var (R.cursor a i n) y := rfl
  rw [Evaluation.next?, R.next_cursor a i n _ ha, if_pos hi] at hnext
  generalize R.element a i y.rest = p at hfetch hnext
  obtain ⟨res, rest⟩ := p
  cases res with
  | error d =>
      exact .inr ⟨d, _, _, E.simple_store_error w.fetch_stmt hfetch, hnext, (h.withRest rest).toOutside⟩
  | ok d =>
      have hvar : w.var.place ∉ w.places := by
        simp only [places, mem_cons, not_mem_nil, or_false, not_or]
        exact ⟨(hu.writes _ mem_cons_self).1, (hu.writes _ mem_cons_self).2, hw.var⟩
      exact .inl ⟨_, _, E.simple_store_ok w.fetch_stmt hfetch, hnext, (h.withRest rest).set hvar fun _ => rfl⟩

theorem respects_body (hu : w.Undisturbed) {t} (ht : t ∈ nodesList w.body) :
    E.actions.Respects (w.mentions · = false) (w.InFront E a n i) t := by
  have hset : ∀ v ∈ t.ownWrites, v.place ∉ w.places := fun v hv => by
    have := hu.writes v (mem_cons_of_mem _ (mem_flatMap.mpr ⟨t, ht, hv⟩))
    simp only [places, mem_cons, not_mem_nil, or_false, not_or]
    exact ⟨this.1, this.2, hw.writes t ht v hv⟩
  refine Evaluation.respects (fun s hs => ?_) (hw.reads t ht) hset
  subst hs
  rw [Bool.eq_false_iff, Ne, mentions_iff]
  rintro ⟨v, hv, hp⟩
  exact (mem_append.mp hv).elim (hw.reads _ ht v · hp) (hset v · hp)

omit hw in
theorem mentions_fetch : w.mentions w.fetch = true := by
  obtain ⟨a2, k2, ty, helement, ha2, -⟩ := eq_of_isElementOf w.element_eq
  refine mentions_iff.mpr ⟨a2, ?_, by simp [places, place_eq_of_same ha2]⟩
  simp [w.fetch_stmt, helement, Stmt.operands]

omit hw in
theorem mentions_step : w.mentions w.step = true := by
  obtain ⟨k3, hstep, hk3⟩ := stmt_of_isStepOf w.step_eq
  refine mentions_iff.mpr ⟨k3, ?_, by simp [places, place_eq_of_same hk3]⟩
  simp [hstep, Stmt.written?]

theorem follows_round (hu : w.Undisturbed) (m : Nat) {x' y'}
    (hfetch : E.actions.simple w.fetch x = ⟨[w.fetch], x', .normal⟩) (h : w.InFront E a n i x' y') :
    let r := execList E.actions m (.simple w.fetch :: (w.body ++ [.simple w.step])) x
    let q := execList E.actions m w.body y'
    w.Follows r q ∧ (q.ending = .normal → w.InFront E a n (i + 1) r.state q.state) := by
  intro r q
  have hbody := related_execList (n := m) w.body (fun t ht => respects_body hw hu ht) h
  have hkept : (execList E.actions m w.body x').trace.filter (!w.mentions ·) = q.trace := by
    rw [hbody.trace, filter_eq_self]
    exact fun s hs => by simp [hbody.executed s hs]
  have hr : r = ((execList E.actions m w.body x').andThen (execList E.actions m [.simple w.step])).behind [w.fetch] := by
    rw [← execList_append]
    exact execList_of_normal hfetch _
  by_cases hn : q.ending = .normal
  · obtain ⟨x'', hstep, h''⟩ := step_inFront hw hbody.state
    rw [Source.Outcome.andThen_of_normal (hbody.ending.trans hn), execList_of_normal hstep] at hr
    rw [hr]
    refine ⟨⟨?_, hn.symm, h''.toOutside⟩, fun _ => h''⟩
    simp [Source.Outcome.behind, execList, Source.Outcome.done, hkept, mentions_fetch, mentions_step]
  · rw [Source.Outcome.andThen_of_ne (by rwa [hbody.ending])] at hr
    rw [hr]
    refine ⟨⟨?_, hbody.ending, hbody.state.toOutside⟩, fun h => absurd h hn⟩
    simp [Source.Outcome.behind, hkept, mentions_fetch]

/-! ### The loops -/

theorem follows_rounds (hu : w.Undisturbed) (R : Arrays E) (ha : R.IsArray a) (m j : Nat) (h : w.InFront E a n i x y) :
    w.Follows ((Source.rounds (fun x => (E.actions.test w.test x).andThen
        (execList E.actions m (.simple w.fetch :: (w.body ++ [.simple w.step])))) j x).take (·.breaks none))
      ((elements (E.actions.next w.var) (execList E.actions m w.body) j (R.cursor a i n) y).take (·.breaks none)) := by
  induction j generalizing i x y with
  | zero => exact ⟨rfl, rfl, h.toOutside⟩
  | succ j ih =>
      rw [Source.rounds, elements, test_inFront hw h]
      by_cases hi : i < n
      · have hstart (f : Memory ν τ → Source.Outcome (Memory ν τ) ν) :
            (⟨[], x, .normal⟩ : Source.Outcome (Memory ν τ) ν).andThen f = f x := rfl
        rw [if_pos hi, hstart]
        rcases fetch_inFront hw hu R h ha hi with ⟨x', y', hfetch, hnext, h'⟩ | ⟨d, x', y', hfetch, hnext, h'⟩
        · obtain ⟨hround, hnormal⟩ := follows_round hw hu m hfetch h'
          rw [hnext]
          exact hround.andThen_take fun hn => ih (hnormal hn)
        · rw [hnext, execList_of_threw hfetch]
          exact ⟨filter_cons_of_neg (by simp [mentions_fetch]), rfl, h'⟩
      · rw [next_behind R ha hi, if_neg hi]
        exact ⟨rfl, rfl, h.toOutside⟩

/-! ### The whole -/

omit hw in
theorem mentions_store {s} {v : LocalVar} {e} (hs : s.stmt = .store v e) (hv : v.place ∈ w.places) :
    w.mentions s = true := mentions_iff.mpr ⟨v, by simp [hs, Stmt.written?], hv⟩

theorem prepare (R : Arrays E) (hprep : w.Prepares t₂ t₃) (m : Nat) {rest}
    (hv : E.value w.iterable x.vars x.rest = (.ok a, rest)) (ha : R.IsArray a) :
    let r := execList E.actions m [.simple w.keep, t₂, t₃] x
    let y : Memory ν τ := { x with rest := (R.length a rest).2 }
    r.trace.filter (!w.mentions ·) = [] ∧
      match (R.length a rest).1 with
      | .ok n => r.ending = .normal ∧ w.InFront E a n 0 r.state y
      | .error d => r.ending = .threw d ∧ r.state.Outside w.places y := by
  obtain ⟨a1, hsize, ha1⟩ := eq_of_isLengthOf w.size_eq
  have ha1 := place_eq_of_same ha1
  have hd := hw.distinct
  simp only [places, nodup_cons, mem_cons, not_mem_nil, or_false, not_or] at hd
  have hplaces : w.array.place ∈ w.places ∧ w.length.place ∈ w.places ∧ w.index.place ∈ w.places := by simp [places]
  have hkept : ({ x with rest }.set w.array a).vars a1.place = a := by rw [ha1, Memory.set_vars_self]
  have hlength : E.value w.size ({ x with rest }.set w.array a).vars rest =
      (R.length a rest).map (·.map E.int) id := by
    rw [hsize, R.value_arrayLength _ _ _ (hkept.symm ▸ ha), hkept]
  have hreset : w.reset.stmt = .store w.index (.intLit 0) := by rw [w.reset_stmt, eq_of_isZero w.zero_eq]
  obtain ⟨htrace, hcase⟩ := E.execList_either m hprep w.measure_stmt hreset hd.2.1
    (fun u hu => by
      rw [hsize, Expr.vars_arrayLength, Expr.vars_localVar, mem_singleton] at hu
      rw [hu, ha1]
      exact hd.1.2) hplaces.2.2 hlength
  have hout := ((Memory.Outside.refl w.places { x with rest }).set hplaces.1 a).withRest (R.length a rest).2
  rw [execList_of_normal (E.simple_store_ok w.keep_stmt hv)]
  refine ⟨filter_eq_nil_iff.mpr fun s hs => ?_, ?_⟩
  · have hstored : s = w.keep ∨ s = w.measure ∨ s = w.reset := (mem_cons.mp hs).imp_right (htrace s)
    rcases hstored with rfl | rfl | rfl
    · simp [mentions_store w.keep_stmt hplaces.1]
    · simp [mentions_store w.measure_stmt hplaces.2.1]
    · simp [mentions_store w.reset_stmt hplaces.2.2]
  · rcases hcase with ⟨d, hres, hnormal, hstate⟩ | ⟨d, hres, hthrew, hstate⟩ <;>
      cases hsome : (R.length a rest).1 <;> rw [hsome] at hres <;> cases hres
    · refine ⟨hnormal, (inFront_iff hw).mpr ?_⟩
      simp only [Source.Outcome.behind, hstate]
      exact ⟨(hout.set hplaces.2.1 _).set hplaces.2.2 _, by simp [Memory.set, hd]⟩
    · exact ⟨hthrew, hstate.trans hout⟩

theorem follows_execList (hu : w.Undisturbed) (R : Arrays E) (hprep : w.Prepares t₂ t₃) (m : Nat)
    (hx : ∀ a rest, E.value w.iterable x.vars x.rest = (.ok a, rest) → R.IsArray a) :
    w.Follows (execList E.actions m [.simple w.keep, t₂, t₃, w.looped] x) (execList E.actions m [w.recovered] x) := by
  have hbody (z : Memory ν τ) : (execList E.actions m w.body z).take (·.resumes w.name.toList) =
      execList E.actions m w.body z := Source.Outcome.take_of_not (resumes_execList hu.continues z)
  have hloop (z : Memory ν τ) :
      (execList E.actions m (.simple w.fetch :: (w.body ++ [.simple w.step])) z).take (·.resumes w.name.toList) =
        execList E.actions m (.simple w.fetch :: (w.body ++ [.simple w.step])) z := by
    refine Source.Outcome.take_of_not (resumes_execList ?_ z)
    simp [Tree.continuesIn, continuesIn_append, Tree.continues, hu.continues]
  have hsplit : execList E.actions m [.simple w.keep, t₂, t₃, w.looped] x =
      (execList E.actions m [.simple w.keep, t₂, t₃] x).andThen (execList E.actions m [w.looped]) :=
    execList_append [.simple w.keep, t₂, t₃] [w.looped] x
  rw [execList_singleton, recovered]
  cases hv : E.value w.iterable x.vars x.rest with
  | mk res rest =>
      have hvalue : E.actions.value w.iterable x = (res, { x with rest }) := by
        simp only [Evaluation.actions, Memory.lift, hv]
      cases res with
      | error d =>
          rw [execList_of_threw (E.simple_store_error w.keep_stmt hv),
            exec_relabeled_of_threw (by simp only [exec, hvalue]; rfl)]
          have hkeep : w.mentions w.keep = true := mentions_store w.keep_stmt (by simp [places])
          exact ⟨by simp [hkeep], rfl, .refl _ _⟩
      | ok a =>
          have ha := hx a rest hv
          obtain ⟨htrace, hprepare⟩ := prepare hw R hprep m hv ha
          have hiterate : E.actions.iterate a { x with rest } =
              ((R.length a rest).1.map (R.cursor a 0), { x with rest := (R.length a rest).2 }) := by
            simp only [Evaluation.actions, Memory.lift, R.iterate_array a rest ha, Prod.map, id]
          rw [hsplit]
          cases hlength : (R.length a rest).1 with
          | error d =>
              rw [hlength] at hprepare hiterate
              rw [Source.Outcome.andThen_of_ne (by simp [hprepare.1]),
                exec_relabeled_of_threw (by simp only [exec, hvalue, given, hiterate]; rfl)]
              exact ⟨htrace, hprepare.1, hprepare.2⟩
          | ok n =>
              rw [hlength] at hprepare hiterate
              rw [Source.Outcome.andThen_of_normal hprepare.1, execList_singleton]
              refine Follows.behind (follows_relabeled ?_) htrace
              simp only [exec, hvalue, given, hiterate, hbody, hloop]
              exact follows_rounds hw hu R ha m m hprepare.2

end

end ArrayWalk

/-! ## Every position -/

section

attribute [local simp] Tree.nodes Tree.nodesList Tree.nodesBlock Tree.nodesPart Stmt.operands Stmt.written?
  count_append count_cons

theorem fewer_recoverForEach (uses : VarUses) (ts : List Tree) :
    Fewer (nodesList ts) (nodesList (recoverForEach uses ts)) := by
  refine related_recoverForEach Fewer.compositional (fun w _ => ?_) (fun w t₂ t₃ hprep _ => ?_) ts trivial
  · obtain ⟨kind, owner, d, hstart⟩ := w.start_eq
    have hvar : LocalVar.key { w.var with ty := w.ty } = w.var.key := rfl
    constructor
    all_goals simp [IteratorWalk.looped, IteratorWalk.recovered, w.init_stmt, w.first_stmt, hstart, hvar]
    all_goals omega
  · rcases hprep with ⟨rfl, rfl⟩ | ⟨rfl, rfl⟩ <;> constructor
    all_goals simp [ArrayWalk.looped, ArrayWalk.recovered, Tree.nodesList_append, w.keep_stmt, w.fetch_stmt]
    all_goals omega

end

/-- At every position of a body in which one storage has one name, a loop over the elements of an array does
what the loop with the index did, unless the body continues it or sets the array or its length. -/
theorem follows_arrayLoop {ts : List Tree} {t₁ t₂ t₃ t₄ t : Tree}
    (hN : OneName (readKeys (nodesList ts) ++ writtenKeys (nodesList ts)))
    (hpos : Tree.Position (recoverForEach (.ofStmts ts)) [t₁, t₂, t₃, t₄] ts)
    (ht : arrayLoop? (.ofStmts ts) t₁ t₂ t₃ t₄ = some t) :
    ∃ w : ArrayWalk (.ofStmts ts), (t₁ = .simple w.keep ∧ w.Prepares t₂ t₃ ∧ t₄ = w.looped ∧ t = w.recovered) ∧
      (w.Undisturbed → ∀ (E : Evaluation ν τ) (R : Arrays E) (n : Nat) (x : Memory ν τ),
        (∀ a rest, E.value w.iterable x.vars x.rest = (.ok a, rest) → R.IsArray a) →
        w.Follows (execList E.actions n [t₁, t₂, t₃, t₄] x) (execList E.actions n [t] x)) := by
  obtain ⟨w, rfl, hprep, rfl, rfl⟩ := arrayLoop?_some ht
  refine ⟨w, ⟨rfl, hprep, rfl, rfl⟩, fun hu E R n x hx => ?_⟩
  have hfewer := Fewer.of_position (fewer_recoverForEach (.ofStmts ts)) hpos
  have hw : w.Apart := w.apart hN hprep (hfewer.within (List.Subset.refl _)) hfewer.reads hfewer.writes
  exact ArrayWalk.follows_execList hw hu R hprep n hx

def sampleArrays : Arrays sample where
  IsArray _ := True
  length a rest := (a.length, rest)
  element a i rest := (a.element i, rest)
  cursor := .cursor
  value_arrayLength _ _ _ _ := rfl
  value_arrayLoad v w ty vars rest i _ hw := by
    change ((match vars w.place with
      | .int i => (vars v.place).element i
      | _ => .error .fault : Except Sample Sample), rest) = _
    rw [hw]
    rfl
  iterate_array _ _ _ := rfl
  next_cursor _ _ _ _ _ := rfl

def threeFour : Memory Sample Unit where
  vars p := if p = (.slot, 0) then .ints [3, 4] else if p = (.slot, 6) then .int 5 else .int 0
  rest := ()

/-- Both loops add the elements up. -/
theorem follows_arrayLoop_sum :
    let ts := loopOver [.simple addElement]
    let q := execList sample.actions 3 (recoverForEach (.ofStmts ts) ts) threeFour
    q.trace = [addElement, addElement] ∧ q.state.vars sumVar.place = .int 7 ∧
      ∃ w : ArrayWalk (.ofStmts ts), w.Follows (execList sample.actions 3 ts threeFour) q := by
  refine ⟨rfl, by decide +kernel, ?_⟩
  obtain ⟨w, ⟨hkeep, hprep, -, hfound⟩, h⟩ := @follows_arrayLoop Sample Unit (loopOver [.simple addElement]) _ _ _ _
    (.forEach elementVar (.localVar (.ofSlot 0 none (.array .int))) [.simple addElement])
    (by unfold OneName; decide +kernel) (.here List.infix_rfl) rfl
  refine ⟨w, h ?_ sample sampleArrays 3 threeFour fun _ _ _ => trivial⟩
  -- The statements say what the variables and the body are.
  obtain ⟨name, _, _, _, _, _, _, _, _, _, _, _, _, _, _, _, keep, measure, _, _, size, _, _, _, _, _, _, _, _⟩ := w
  cases hkeep
  cases keep
  rcases hprep with ⟨hmeasure, -⟩ | ⟨-, hmeasure⟩ <;> cases hmeasure <;> cases measure
  · cases name <;> cases hfound
    refine ⟨rfl, ?_⟩
    dsimp only
    decide +kernel
  · cases size

def limitVar : LocalVar := .ofSlot 6 none .int

/-- Adds the element and, below the limit, does the same again without a step. -/
def addBelowLimit : List Tree :=
  [.simple addElement, .ifElse (.compare .lt (.localVar sumVar) (.localVar limitVar)) [.continueTo none] none]

/-- Adds the element and makes it the last one. -/
def addOnce : List Tree := [.simple addElement, .simple ⟨.store lengthVar (.intLit 1), 14, 16, none⟩]

/-- Not so where the loop is continued, or the length is set: 3 + 3 + 4 and 3 turn into 3 + 4. -/
theorem arrayLoop_disturbed :
    let ran (ts : List Tree) := execList sample.actions 5 ts threeFour
    let recover (ts : List Tree) := recoverForEach (.ofStmts ts) ts
    let found (body : List Tree) := [Tree.forEach elementVar (.localVar (.ofSlot 0 none (.array .int))) body]
    ∀ body sum, (body, sum) ∈ [(addBelowLimit, 10), (addOnce, 3)] →
      recover (loopOver body) = found body ∧
      (ran (loopOver body)).ending = .normal ∧ (ran (loopOver body)).state.vars sumVar.place = .int sum ∧
      (ran (found body)).ending = .normal ∧ (ran (found body)).state.vars sumVar.place = .int 7 := by
  intro ran recover found body sum h
  simp only [List.mem_cons, Prod.mk.injEq, List.not_mem_nil, or_false] at h
  rcases h with ⟨rfl, rfl⟩ | ⟨rfl, rfl⟩
  · exact ⟨rfl, rfl, by decide +kernel, rfl, by decide +kernel⟩
  · exact ⟨rfl, rfl, by decide +kernel, rfl, by decide +kernel⟩

end JvmLift.Sugar

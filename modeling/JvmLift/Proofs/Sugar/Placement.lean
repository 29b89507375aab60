import JvmLift.Sugar.Declarations
import Mathlib.Data.List.Nodup

/-!
# Where variables are declared

A variable that a list mentions is declared at the first statement that mentions it, or left to a
nested list of the only such statement, which then does not name it itself.
-/
namespace JvmLift.Sugar

open List

/-! ## Free variables -/

def keysOf (vs : List LocalVar) : List VarKey := vs.map (·.key)

variable {vs : List LocalVar} {k : VarKey}

theorem mem_keysOf : k ∈ keysOf vs ↔ ∃ v ∈ vs, v.key = k := mem_map

@[simp] theorem keysOf_nil : keysOf [] = [] := rfl

@[simp] theorem keysOf_append (vs ws : List LocalVar) : keysOf (vs ++ ws) = keysOf vs ++ keysOf ws :=
  map_append

theorem mem_unbound {bound} : k ∈ keysOf (unbound bound vs) ↔ k ∉ bound ∧ k ∈ keysOf vs := by
  simp only [unbound, mem_keysOf, mem_filter, Bool.not_eq_true', contains_eq_mem,
    decide_eq_false_iff_not]
  constructor
  · rintro ⟨v, ⟨hv, hb⟩, rfl⟩
    exact ⟨hb, v, hv, rfl⟩
  · rintro ⟨hb, v, hv, rfl⟩
    exact ⟨v, ⟨hv, hb⟩, rfl⟩

section

variable {k : VarKey}

mutual

theorem mem_nestedVars (bound : List VarKey) : (t : Tree) →
    (k ∈ keysOf (nestedVars bound t) ↔ k ∉ bound ∧ k ∈ keysOf (nestedVars [] t))
  | .ifElse _ t b => by
      simp only [nestedVars, keysOf_append, mem_append, mem_varsIn bound t, mem_varsBlock bound b,
        and_or_left]
  | .whileLoop _ b | .doWhile b _ | .synchronized _ b => mem_varsIn bound b
  | .forLoop i _ _ b => by
      simp only [nestedVars]
      rw [mem_varsIn _ b, mem_varsIn (_ ++ []) b]
      simp only [mem_append, append_nil, not_or, and_assoc, and_left_comm]
  | .forEach v _ b => by
      simp only [nestedVars]
      rw [mem_varsIn _ b, mem_varsIn [v.key] b]
      simp only [mem_cons, not_mem_nil, or_false, not_or, and_assoc, and_left_comm]
  | .switch _ _ arms => mem_varsArms bound arms
  | .tryCatch _ b cs c => by
      simp only [nestedVars, keysOf_append, mem_append, mem_varsIn bound b, mem_varsClauses bound cs,
        mem_varsBlock bound c, and_or_left]
  | .labeled _ t => mem_nestedVars bound t
  | .simple _ | .declare .. | .breakTo _ | .continueTo _ | .label _ | .goto _ | .comment _ => by
      simp [nestedVars]

theorem mem_varsIn (bound : List VarKey) : (ts : List Tree) →
    (k ∈ keysOf (varsIn bound ts) ↔ k ∉ bound ∧ k ∈ keysOf (varsIn [] ts))
  | [] => by simp [varsIn]
  | t :: ts => by
      simp only [varsIn, keysOf_append, mem_append, mem_unbound, mem_nestedVars bound t,
        mem_varsIn bound ts, not_mem_nil, not_false_eq_true, true_and, and_or_left]

theorem mem_varsBlock (bound : List VarKey) : (b : Option (List Tree)) →
    (k ∈ keysOf (varsBlock bound b) ↔ k ∉ bound ∧ k ∈ keysOf (varsBlock [] b))
  | none => by simp [varsBlock]
  | some ts => mem_varsIn bound ts

theorem mem_varsArms (bound : List VarKey) : (arms : List (Arm × List Tree)) →
    (k ∈ keysOf (varsArms bound arms) ↔ k ∉ bound ∧ k ∈ keysOf (varsArms [] arms))
  | [] => by simp [varsArms]
  | (_, b) :: rest => by
      simp only [varsArms, keysOf_append, mem_append, mem_varsIn bound b, mem_varsArms bound rest,
        and_or_left]

theorem mem_varsClauses (bound : List VarKey) : (cs : List (Clause × List Tree)) →
    (k ∈ keysOf (varsClauses bound cs) ↔ k ∉ bound ∧ k ∈ keysOf (varsClauses [] cs))
  | [] => by simp [varsClauses]
  | (c, b) :: rest => by
      simp only [varsClauses, keysOf_append, mem_append]
      rw [mem_varsIn _ b, mem_varsIn [c.var.key] b, mem_varsClauses bound rest]
      simp only [mem_cons, not_mem_nil, or_false, not_or, and_assoc, and_left_comm, and_or_left]

end

end

/-- Does a statement mention a variable, itself or in a nested list that does not bind it? -/
def Mentions (k : VarKey) (t : Tree) : Prop := k ∈ keysOf (namedVars t) ∨ k ∈ keysOf (nestedVars [] t)

theorem mem_freeVars {bound t} : k ∈ keysOf (freeVars bound t) ↔ k ∉ bound ∧ Mentions k t := by
  simp only [freeVars, keysOf_append, mem_append, mem_unbound, mem_nestedVars bound t, Mentions,
    and_or_left]

theorem mentions_of_mem {ts} : k ∈ keysOf (varsIn [] ts) ↔ ∃ t ∈ ts, Mentions k t := by
  induction ts with
  | nil => simp [varsIn]
  | cons t ts ih =>
      simp only [varsIn, keysOf_append, mem_append, ih, mem_unbound, not_mem_nil, not_false_eq_true,
        true_and, mem_cons, exists_eq_or_imp, Mentions]

/-! ## Distinct variables -/

def isParamKey (slots : UInt16) (k : VarKey) : Bool := k.origin == .slot && k.index < slots

theorem isParam_eq (slots : UInt16) (v : LocalVar) : isParam slots v = isParamKey slots v.key := rfl

theorem mem_distinctVars : k ∈ keysOf (distinctVars vs) ↔ k ∈ keysOf vs := by
  induction vs with
  | nil => rfl
  | cons v vs ih =>
      by_cases hk : v.key = k
      · simp [distinctVars, keysOf, hk]
      · have hfilter : k ∈ keysOf ((distinctVars vs).filter (·.key ≠ v.key)) ↔ k ∈ keysOf (distinctVars vs) := by
          simp only [mem_keysOf, mem_filter, decide_eq_true_eq]
          exact ⟨fun ⟨w, hw, hwk⟩ => ⟨w, hw.1, hwk⟩, fun ⟨w, hw, hwk⟩ => ⟨w, ⟨hw, fun h => hk (h.symm.trans hwk)⟩, hwk⟩⟩
        rw [distinctVars, keysOf, map_cons, mem_cons, ← keysOf, hfilter, ih]
        simp [keysOf]

theorem nodup_distinctVars (vs : List LocalVar) : (keysOf (distinctVars vs)).Nodup := by
  induction vs with
  | nil => exact nodup_nil
  | cons v vs ih =>
      rw [distinctVars, keysOf, map_cons, nodup_cons]
      refine ⟨fun h => ?_, ih.sublist ((filter_sublist).map _)⟩
      obtain ⟨w, hw, hwk⟩ := mem_map.mp h
      simpa [hwk] using (mem_filter.mp hw).2

/-! ## Placements -/

def usersFrom (k : VarKey) (n : Nat) (mentions : List (List VarKey)) : List Nat :=
  (mentions.zipIdx n).filterMap fun (keys, i) => if keys.contains k then some i else none

variable {mentions : List (List VarKey)}

theorem mem_usersFrom {i} : i ∈ usersFrom k 0 mentions ↔ ∃ keys, mentions[i]? = some keys ∧ k ∈ keys := by
  simp only [usersFrom, mem_filterMap, Prod.exists, mem_zipIdx_iff_getElem?]
  constructor
  · rintro ⟨keys, j, hj, h⟩
    split at h
    · rename_i hk
      cases h
      exact ⟨keys, hj, by simpa using hk⟩
    · cases h
  · rintro ⟨keys, hi, hk⟩
    exact ⟨keys, i, hi, by simp [hk]⟩

theorem head_le_of_mem_usersFrom {n first i} (hfirst : (usersFrom k n mentions).head? = some first)
    (hi : i ∈ usersFrom k n mentions) : first ≤ i := by
  have hle (mentions : List (List VarKey)) (n i : Nat) (hi : i ∈ usersFrom k n mentions) : n ≤ i := by
    simp only [usersFrom, mem_filterMap, Prod.exists] at hi
    obtain ⟨keys, j, hj, h⟩ := hi
    split at h <;> cases h
    exact (mem_zipIdx hj).1
  induction mentions generalizing n with
  | nil => cases hi
  | cons keys mentions ih =>
      by_cases hk : keys.contains k
      · have hcons : usersFrom k n (keys :: mentions) = n :: usersFrom k (n + 1) mentions := by
          simp only [usersFrom, zipIdx_cons, filterMap_cons, hk, if_true]
        rw [hcons] at hfirst
        cases hfirst
        exact hle _ _ _ hi
      · have hcons : usersFrom k n (keys :: mentions) = usersFrom k (n + 1) mentions := by
          simp only [usersFrom, zipIdx_cons, filterMap_cons, hk, Bool.false_eq_true, if_false]
        rw [hcons] at hfirst hi
        exact ih hfirst hi

def declarable (slots : UInt16) (bound : List VarKey) (ts : List Tree) : List (List LocalVar) :=
  ts.map fun t => (freeVars bound t).filter fun v => !isParam slots v

section

variable {slots : UInt16} {bound : List VarKey} {ts : List Tree} {t : Tree} {k : VarKey} {i : Nat}

theorem mem_declarable (ht : ts[i]? = some t) :
    (∃ keys, ((declarable slots bound ts).map keysOf)[i]? = some keys ∧ k ∈ keys) ↔
      k ∉ bound ∧ Mentions k t ∧ isParamKey slots k = false := by
  have hmem : k ∈ keysOf ((freeVars bound t).filter fun v => !isParam slots v) ↔
      k ∈ keysOf (freeVars bound t) ∧ isParamKey slots k = false := by
    simp only [mem_keysOf, mem_filter, Bool.not_eq_true', isParam_eq]
    exact ⟨fun ⟨v, hv, hk⟩ => ⟨⟨v, hv.1, hk⟩, hk ▸ hv.2⟩, fun ⟨⟨v, hv, hk⟩, hp⟩ => ⟨v, ⟨hv, hk ▸ hp⟩, hk⟩⟩
  simp only [declarable, getElem?_map, ht, Option.map_some, Option.some.injEq,
    exists_eq_left', hmem, mem_freeVars, and_assoc]

theorem placement?_eq {v} :
    placement? ts mentions v = (usersFrom v.key 0 mentions).head?.bind fun first => ts[first]?.bind fun t =>
      if (usersFrom v.key 0 mentions).length = 1 ∧ defersToNested t v.key then none
      else some ⟨v, first, storesTo v.key t⟩ := rfl

/-- The variable of a placement is to be declared here, at the first statement that mentions it. -/
structure Placed (slots : UInt16) (bound : List VarKey) (ts : List Tree) (p : Placement) : Prop where
  fresh : p.var.key ∉ bound
  isLocal : isParamKey slots p.var.key = false
  at_index : ∃ t, ts[p.index]? = some t ∧ Mentions p.var.key t ∧ p.inPlace = storesTo p.var.key t
  first : ∀ i t, ts[i]? = some t → Mentions p.var.key t → p.index ≤ i

variable {p : Placement}

theorem mem_placements : p ∈ placements slots bound ts ↔ ∃ v ∈ distinctVars (declarable slots bound ts).flatten,
      placement? ts ((declarable slots bound ts).map keysOf) v = some p := by
  simp only [placements, mem_filterMap, mem_mergeSort]
  rfl

theorem placed_of_mem (h : p ∈ placements slots bound ts) : Placed slots bound ts p := by
  obtain ⟨v, -, hp⟩ := mem_placements.mp h
  rw [placement?_eq] at hp
  simp only [Option.bind_eq_some_iff] at hp
  obtain ⟨first, hfirst, t, ht, hp⟩ := hp
  split at hp <;> cases hp
  have hmem := mem_usersFrom.mp (mem_of_mem_head? hfirst)
  obtain ⟨hb, hm, hl⟩ := (mem_declarable ht).mp hmem
  refine ⟨hb, hl, ⟨t, ht, hm, rfl⟩, fun i t' ht' hm' => ?_⟩
  exact head_le_of_mem_usersFrom hfirst (mem_usersFrom.mpr ((mem_declarable ht').mpr ⟨hb, hm', hl⟩))

theorem var_of_placement? {v} (h : placement? ts mentions v = some p) : p.var = v := by
  rw [placement?_eq] at h
  simp only [Option.bind_eq_some_iff] at h
  obtain ⟨first, -, t, -, h⟩ := h
  split at h <;> cases h
  rfl

theorem nodup_placements (slots : UInt16) (bound : List VarKey) (ts : List Tree) :
    ((placements slots bound ts).map (·.var.key)).Nodup := by
  have hsub (mentions : List (List VarKey)) (vs : List LocalVar) :
      ((vs.filterMap (placement? ts mentions)).map (·.var.key)).Sublist (keysOf vs) := by
    induction vs with
    | nil => exact List.Sublist.refl _
    | cons v vs ih =>
        rw [filterMap_cons]
        cases h : placement? ts mentions v with
        | none => exact ih.cons _
        | some p =>
            rw [map_cons, var_of_placement? h]
            exact ih.cons_cons _
  refine List.Nodup.sublist (hsub _ _) ?_
  exact ((mergeSort_perm _ _).map _).nodup_iff.mpr (nodup_distinctVars _)

theorem eq_of_key_eq {q} (hp : p ∈ placements slots bound ts)
    (hq : q ∈ placements slots bound ts) (h : p.var.key = q.var.key) : p = q :=
  inj_on_of_nodup_map (nodup_placements slots bound ts) hp hq h

/-- A variable that a statement mentions is declared in the list, unless it is left to the nested lists
of that statement. -/
theorem exists_placement (ht : ts[i]? = some t) (hm : Mentions k t) (hb : k ∉ bound)
    (hl : isParamKey slots k = false) : (∃ p ∈ placements slots bound ts, p.var.key = k) ∨
      k ∉ keysOf (namedVars t) ∧ ∀ p ∈ placements slots bound ts, p.var.key ≠ k := by
  by_cases hp : ∃ p ∈ placements slots bound ts, p.var.key = k
  · exact .inl hp
  · refine .inr ⟨fun hnamed => hp ?_, fun p hmem hk => hp ⟨p, hmem, hk⟩⟩
    obtain ⟨keys, hkeys, hk⟩ := (mem_declarable ht).mpr ⟨hb, hm, hl⟩
    have hvar : k ∈ keysOf (declarable slots bound ts).flatten := by
      obtain ⟨vs, hvs, rfl⟩ := mem_map.mp (List.mem_of_getElem? hkeys)
      obtain ⟨v, hv, rfl⟩ := mem_keysOf.mp hk
      exact mem_keysOf.mpr ⟨v, mem_flatten.mpr ⟨vs, hvs, hv⟩, rfl⟩
    obtain ⟨v, hv, rfl⟩ := mem_keysOf.mp (mem_distinctVars.mpr hvar)
    have huser := mem_usersFrom.mpr ⟨keys, hkeys, hk⟩
    obtain ⟨first, hfirst⟩ : ∃ first, (usersFrom v.key 0 _).head? = some first :=
      ⟨_, head?_eq_some_head (ne_nil_of_mem huser)⟩
    obtain ⟨keys', hkeys', -⟩ := mem_usersFrom.mp (mem_of_mem_head? hfirst)
    obtain ⟨t', ht'⟩ : ∃ t', ts[first]? = some t' := by
      simp only [declarable, getElem?_map, Option.map_eq_some_iff] at hkeys'
      obtain ⟨_, ⟨t', ht', -⟩, -⟩ := hkeys'
      exact ⟨t', ht'⟩
    refine ⟨⟨v, first, storesTo v.key t'⟩, mem_placements.mpr ⟨v, hv, ?_⟩, rfl⟩
    rw [placement?_eq, hfirst, Option.bind_some, ht', Option.bind_some, if_neg]
    -- a variable that the only statement names is not left to its nested lists
    rintro ⟨hone, hdefers⟩
    obtain ⟨only, honly⟩ := length_eq_one_iff.mp hone
    rw [honly] at huser hfirst
    cases hfirst
    obtain rfl := mem_singleton.mp huser
    obtain rfl := Option.some.inj (ht.symm.trans ht')
    obtain ⟨w, hw, hwk⟩ := mem_keysOf.mp hnamed
    simp only [defersToNested, Bool.and_eq_true, Bool.not_eq_true', any_eq_false] at hdefers
    exact hdefers.1 w hw (by simpa using hwk)

end

end JvmLift.Sugar

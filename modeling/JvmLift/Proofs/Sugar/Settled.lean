import JvmLift.Proofs.Sugar.Locals

/-!
# Declarations reach where they settle

What the pass that declares variables leaves is in scope exactly if every placement settles and what is
bound around it is visible where it is mentioned.
-/
namespace JvmLift.Sugar

open List

/-! ## One list -/

/-- Variables known in front of a statement of a list: some that are bound around the list, and some
that it declares before. -/
structure Before (slots : UInt16) (bound : List VarKey) (whole : List Tree) (i : Nat) (ks : List VarKey) :
    Prop where
  subset : ks ⊆ boundIn slots bound whole
  fresh : ∀ p ∈ placements slots bound whole, i ≤ p.index → p.var.key ∉ ks

def laterKeys (slots : UInt16) (bound : List VarKey) (whole : List Tree) (i : Nat) : List VarKey :=
  ((placements slots bound whole).filter (i ≤ ·.index)).map (·.var.key)

/-- The statements of a list from one on see what they mention, and what is declared from there on settles. -/
def Meets (slots : UInt16) (bound : List VarKey) (whole : List Tree) (i : Nat) (ts : List Tree)
    (vis : List VarKey) : Prop :=
  Known slots (boundIn slots bound whole) (laterKeys slots bound whole i ++ vis) (keysOf (varsIn [] ts)) ∧
    (∀ p ∈ placements slots bound whole, i ≤ p.index → settles whole p = true) ∧
    settledIn slots (boundIn slots bound whole) ts = true

section

variable {slots : UInt16} {bound vis dec ks own : List VarKey} {whole ts rest : List Tree} {t : Tree}
  {p : Placement} {k : VarKey} {i : Nat}

theorem mem_laterKeys : k ∈ laterKeys slots bound whole i ↔
    ∃ p ∈ placements slots bound whole, i ≤ p.index ∧ p.var.key = k := by
  simp only [laterKeys, mem_map, mem_filter, decide_eq_true_eq, and_assoc]

theorem mem_boundIn (hp : p ∈ placements slots bound whole) : p.var.key ∈ boundIn slots bound whole :=
  mem_append_left _ (mem_map_of_mem hp)

theorem Before.start (h : ks ⊆ bound) : Before slots bound whole 0 ks where
  subset _ hk := mem_append_right _ (h hk)
  fresh _ hp _ hk := (placed_of_mem hp).fresh (h hk)

section

variable (h : Before slots bound whole i ks)

include h

theorem Before.next (hown : ∀ k ∈ own, ∃ p ∈ placements slots bound whole, p.index = i ∧ p.var.key = k) :
    Before slots bound whole (i + 1) (own ++ (bareKeys slots bound whole i ++ ks)) := by
  have hnew : ∀ k ∈ own ++ (bareKeys slots bound whole i ++ ks), k ∈ ks ∨
      ∃ p ∈ placements slots bound whole, p.index = i ∧ p.var.key = k := by
    intro k hk
    simp only [mem_append, mem_bareKeys] at hk
    rcases hk with hk | ⟨p, hp, hi, -, hk⟩ | hk
    · exact .inr (hown k hk)
    · exact .inr ⟨p, hp, hi, hk⟩
    · exact .inl hk
  refine ⟨fun k hk => ?_, fun p hp hi hk => ?_⟩
  · rcases hnew k hk with hk | ⟨p, hp, -, rfl⟩
    · exact h.subset hk
    · exact mem_boundIn hp
  · rcases hnew _ hk with hk | ⟨q, hq, hqi, heq⟩
    · exact h.fresh p hp (Nat.le_of_succ_le hi) hk
    · obtain rfl := eq_of_key_eq hq hp heq
      omega

theorem Before.subset_bare : bareKeys slots bound whole i ++ ks ⊆ boundIn slots bound whole :=
  (h.next fun _ (hk : _ ∈ []) => (not_mem_nil hk).elim).subset

theorem Before.not_mem (hp : p ∈ placements slots bound whole)
    (hi : p.index = i) (hin : p.inPlace = true) : p.var.key ∉ bareKeys slots bound whole i ++ ks := by
  intro hk
  rcases mem_append.mp hk with hk | hk
  · obtain ⟨q, hq, -, hbare, hkey⟩ := mem_bareKeys.mp hk
    obtain rfl := eq_of_key_eq hq hp hkey
    exact Bool.noConfusion (hin.symm.trans hbare)
  · exact h.fresh p hp (Nat.le_of_eq hi.symm) hk

end

theorem Before.inScope_bare_iff (h : Before slots bound whole i dec) : InScopeList slots vis dec
        ((bareAt (placements slots bound whole) i).map (fun p => .declare p.var none none) ++ rest) ↔
      InScopeList slots (bareKeys slots bound whole i ++ vis) (bareKeys slots bound whole i ++ dec) rest := by
  refine inScopeList_declares_iff ?_ fun p hp => ?_
  · have hsub := (filter_sublist (p := fun p => !p.inPlace)).trans
      (filter_sublist (l := placements slots bound whole) (p := (·.index == i)))
    rw [bareAt, map_reverse, nodup_reverse]
    exact (nodup_placements slots bound whole).sublist (hsub.map _)
  · obtain ⟨hp, hi, -⟩ := mem_bareAt.mp hp
    exact h.fresh p hp (Nat.le_of_eq hi.symm)

theorem Known.congr {vis'} (h : ∀ k ∈ ks, k ∈ vis ↔ k ∈ vis') : Known slots bound vis ks ↔ Known slots bound vis' ks :=
  forall₂_congr fun k hk => imp_congr_right fun _ => imp_congr_right fun _ => h k hk

/-- Everything that a statement of a list names is bound in the list. -/
theorem sees_and_known_iff (ht : whole[i]? = some t) :
    Sees slots ks (keysOf (namedVars t)) ∧ Known slots (boundIn slots bound whole) ks (keysOf (nestedVars [] t)) ↔
      Known slots (boundIn slots bound whole) ks (keysOf (freeVars [] t)) := by
  have hnamed : ∀ k ∈ keysOf (namedVars t), isParamKey slots k = false → k ∈ boundIn slots bound whole := by
    intro k hk hl
    by_cases hb : k ∈ bound
    · exact mem_append_right _ hb
    · rcases exists_placement ht (.inl hk) hb hl with ⟨p, hp, rfl⟩ | ⟨hnot, -⟩
      · exact mem_boundIn hp
      · exact absurd hk hnot
  simp only [Known, mem_freeVars, not_mem_nil, not_false_eq_true, true_and]
  refine ⟨fun h k hm hl hb => hm.elim (h.1 k · hl) (h.2 k · hl hb), fun h => ⟨?_, ?_⟩⟩
  · exact fun k hk hl => h k (.inl hk) hl (hnamed k hk hl)
  · exact fun k hk => h k (.inr hk)

/-- What is declared in place at a statement is `own`: the statement sees it and what is declared in
front of it, and those behind it see also what is declared later. -/
theorem known_cons_iff (ht : whole[i]? = some t)
    (hown : ∀ k, k ∈ own ↔ ∃ p ∈ placements slots bound whole, p.index = i ∧ p.inPlace = true ∧ p.var.key = k) :
    Known slots (boundIn slots bound whole) (laterKeys slots bound whole i ++ vis) (keysOf (varsIn [] (t :: ts))) ↔
      Known slots (boundIn slots bound whole) (own ++ (bareKeys slots bound whole i ++ vis))
          (keysOf (freeVars [] t)) ∧ Known slots (boundIn slots bound whole)
          (laterKeys slots bound whole (i + 1) ++ (own ++ (bareKeys slots bound whole i ++ vis)))
          (keysOf (varsIn [] ts)) := by
  have hlater (k : VarKey) : k ∈ laterKeys slots bound whole i ↔
      k ∈ laterKeys slots bound whole (i + 1) ∨ k ∈ own ∨ k ∈ bareKeys slots bound whole i := by
    simp only [hown, mem_laterKeys, mem_bareKeys]
    constructor
    · rintro ⟨p, hp, hi, rfl⟩
      rcases Nat.lt_or_eq_of_le hi with hlt | heq
      · exact .inl ⟨p, hp, hlt, rfl⟩
      · cases hin : p.inPlace with
        | false => exact .inr (.inr ⟨p, hp, heq.symm, hin, rfl⟩)
        | true => exact .inr (.inl ⟨p, hp, heq.symm, hin, rfl⟩)
    · rintro (⟨p, hp, hi, rfl⟩ | ⟨p, hp, rfl, -, rfl⟩ | ⟨p, hp, rfl, -, rfl⟩)
      · exact ⟨p, hp, Nat.le_of_succ_le hi, rfl⟩
      · exact ⟨p, hp, Nat.le_refl _, rfl⟩
      · exact ⟨p, hp, Nat.le_refl _, rfl⟩
  refine known_append.trans (and_congr (Known.congr fun k hk => ?_) (Known.congr fun k _ => ?_))
  · -- a variable that the statement mentions is not declared behind it
    have hnot : k ∉ laterKeys slots bound whole (i + 1) := by
      rw [mem_laterKeys]
      rintro ⟨p, hp, hi, rfl⟩
      exact absurd ((placed_of_mem hp).first i t ht (mem_freeVars.mp hk).2) (Nat.not_le_of_lt hi)
    simp only [mem_append, hlater, hnot, false_or, or_assoc]
  · simp only [mem_append, hlater, or_assoc]

theorem meets_start : Meets slots bound whole 0 whole vis ↔ Known slots bound vis (keysOf (varsIn [] whole)) ∧
    ((placements slots bound whole).all (settles whole) &&
      settledIn slots (boundIn slots bound whole) whole) = true := by
  have hknown : Known slots (boundIn slots bound whole) (laterKeys slots bound whole 0 ++ vis)
      (keysOf (varsIn [] whole)) ↔ Known slots bound vis (keysOf (varsIn [] whole)) := by
    refine forall₂_congr fun k _ => imp_congr_right fun _ => ?_
    simp only [mem_append, innerBound, mem_laterKeys, Nat.zero_le, true_and, mem_map]
    refine ⟨fun h hb => (h (.inr hb)).resolve_left ?_, fun h => Or.imp id h⟩
    rintro ⟨p, hp, rfl⟩
    exact (placed_of_mem hp).fresh hb
  simp only [Meets, hknown, Nat.zero_le, true_implies, Bool.and_eq_true, all_eq_true]

theorem forall_settles_iff : (∀ p ∈ placements slots bound whole, i ≤ p.index → settles whole p = true) ↔
    (∀ p ∈ placements slots bound whole, p.index = i → settles whole p = true) ∧
      ∀ p ∈ placements slots bound whole, i + 1 ≤ p.index → settles whole p = true := by
  refine ⟨fun h => ⟨fun p hp hi => h p hp (Nat.le_of_eq hi.symm), fun p hp hi => h p hp (Nat.le_of_succ_le hi)⟩, ?_⟩
  exact fun h p hp hi => (Nat.lt_or_eq_of_le hi).elim (h.2 p hp) fun heq => h.1 p hp heq.symm

theorem meets_cons_iff (ht : whole[i]? = some t)
    (hnone : ∀ p ∈ placements slots bound whole, p.index = i → p.inPlace = false) :
    Meets slots bound whole i (t :: ts) vis ↔
      ((Sees slots (bareKeys slots bound whole i ++ vis) (keysOf (namedVars t)) ∧
          Known slots (boundIn slots bound whole) (bareKeys slots bound whole i ++ vis) (keysOf (nestedVars [] t))) ∧
        settledNested slots (boundIn slots bound whole) t = true) ∧
      Meets slots bound whole (i + 1) ts (bareKeys slots bound whole i ++ vis) := by
  have hown (k : VarKey) : k ∈ [] ↔
      ∃ p ∈ placements slots bound whole, p.index = i ∧ p.inPlace = true ∧ p.var.key = k := by
    refine ⟨fun hk => (not_mem_nil hk).elim, ?_⟩
    rintro ⟨p, hp, hi, hin, -⟩
    exact Bool.noConfusion (hin.symm.trans (hnone p hp hi))
  have hat : ∀ p ∈ placements slots bound whole, p.index = i → settles whole p = true := by
    intro p hp hi
    simp [settles, hnone p hp hi]
  rw [Meets, known_cons_iff ht hown, forall_settles_iff, settledIn, Bool.and_eq_true,
    sees_and_known_iff ht, Meets]
  tauto

/-- Behind a store that declares its variable inside a loop or a label, nothing may mention it. -/
theorem known_behind_iff (hvis : Before slots bound whole i vis) (hp : p ∈ placements slots bound whole)
    (hi : p.index = i) (hin : p.inPlace = true)
    (hown : (∃ s, t = .simple s) ∧ own = [p.var.key] ∨ (¬ ∃ s, t = .simple s) ∧ own = []) :
    Known slots (boundIn slots bound whole)
        (laterKeys slots bound whole (i + 1) ++ (own ++ (bareKeys slots bound whole i ++ vis)))
        (keysOf (varsIn [] ts)) ↔ Known slots (boundIn slots bound whole)
          (laterKeys slots bound whole (i + 1) ++ ([p.var.key] ++ (bareKeys slots bound whole i ++ vis)))
          (keysOf (varsIn [] ts)) ∧ ((∃ s, t = .simple s) ∨ p.var.key ∉ keysOf (varsIn [] ts)) := by
  have hnew : p.var.key ∉ laterKeys slots bound whole (i + 1) ++ (bareKeys slots bound whole i ++ vis) := by
    refine fun hk => (mem_append.mp hk).elim (fun hk => ?_) (hvis.not_mem hp hi hin)
    obtain ⟨q, hq, hqi, heq⟩ := mem_laterKeys.mp hk
    obtain rfl := eq_of_key_eq hq hp heq
    omega
  obtain ⟨hsimple, rfl⟩ | ⟨hnot, rfl⟩ := hown
  · exact (and_iff_left (.inl hsimple)).symm
  · refine ⟨fun h => ⟨fun k hk hl hb => ?_, .inr fun hk => ?_⟩, fun h k hk hl hb => ?_⟩
    · exact (mem_append.mp (h k hk hl hb)).elim (mem_append_left _)
        fun hk => mem_append_right _ (mem_cons_of_mem _ hk)
    · exact hnew (h _ hk (placed_of_mem hp).isLocal (mem_boundIn hp))
    · have hne : k ≠ p.var.key := fun heq => (h.2.resolve_left hnot) (heq ▸ hk)
      simpa [hne] using h.1 k hk hl hb

theorem settles_iff_of_drop (hdrop : whole.drop i = t :: ts) (hp : p ∈ placements slots bound whole)
    (hi : p.index = i) (hin : p.inPlace = true) : settles whole p = true ↔
      p.var.key ∉ keysOf (storeReads t) ∧ ((∃ s, t = .simple s) ∨ p.var.key ∉ keysOf (varsIn [] ts)) := by
  subst hi
  have ht : whole[p.index]? = some t := by rw [← head?_drop, hdrop, head?_cons]
  have hbehind (n : Nat) : ts[n]? = whole[p.index + 1 + n]? := by
    rw [← getElem?_drop, ← tail_drop, hdrop, tail_cons]
  rw [settles_iff ht, imp_iff_right hin, mentions_of_mem]
  refine and_congr_right fun _ => or_congr_right ⟨?_, fun h j u hu hm => ?_⟩
  · rintro h ⟨u, hu, hm⟩
    obtain ⟨n, hn⟩ := mem_iff_getElem?.mp hu
    have := h _ u (hbehind n ▸ hn) hm
    omega
  · refine Nat.le_antisymm (Nat.le_of_not_lt fun hlt => ?_) ((placed_of_mem hp).first j u hu hm)
    refine h ⟨u, List.mem_of_getElem? (i := j - (p.index + 1)) ?_, hm⟩
    rw [hbehind, Nat.add_sub_cancel' hlt, hu]

theorem meets_cons_iff_of_stores (hdrop : whole.drop i = t :: ts) (hvis : Before slots bound whole i vis)
    (hp : p ∈ placements slots bound whole) (hi : p.index = i) (hin : p.inPlace = true) (hpt : Plain t)
    (hown : (∃ s, t = .simple s) ∧ own = [p.var.key] ∨ (¬ ∃ s, t = .simple s) ∧ own = []) :
    Meets slots bound whole i (t :: ts) vis ↔
      (((Sees slots (p.var.key :: (bareKeys slots bound whole i ++ vis)) (keysOf (namedVars t)) ∧
          Known slots (boundIn slots bound whole) (p.var.key :: (bareKeys slots bound whole i ++ vis))
            (keysOf (nestedVars [] t))) ∧ p.var.key ∉ keysOf (storeReads t)) ∧
        settledNested slots (boundIn slots bound whole) t = true) ∧
      Meets slots bound whole (i + 1) ts (own ++ (bareKeys slots bound whole i ++ vis)) := by
  have ht : whole[i]? = some t := by rw [← head?_drop, hdrop, head?_cons]
  have hst := stores_of_mem ht hp hi hin
  have hsame : ∀ q ∈ placements slots bound whole, q.index = i → q.inPlace = true → q = p := fun q hq hqi hqin =>
    eq_of_key_eq hq hp (storesTo_unique t hpt (stores_of_mem ht hq hqi hqin) hst)
  have hkeys (k : VarKey) : k ∈ [p.var.key] ↔
      ∃ p ∈ placements slots bound whole, p.index = i ∧ p.inPlace = true ∧ p.var.key = k := by
    refine mem_singleton.trans ⟨fun hk => ⟨p, hp, hi, hin, hk.symm⟩, ?_⟩
    rintro ⟨q, hq, hqi, hqin, rfl⟩
    rw [hsame q hq hqi hqin]
  have hat : (∀ q ∈ placements slots bound whole, q.index = i → settles whole q = true) ↔
      settles whole p = true := by
    refine ⟨fun h => h p hp hi, fun h q hq hqi => ?_⟩
    by_cases hqin : q.inPlace = true
    · rwa [hsame q hq hqi hqin]
    · simp [settles, hqin]
  rw [Meets, known_cons_iff ht hkeys, forall_settles_iff, hat, settledIn, Bool.and_eq_true,
    settles_iff_of_drop hdrop hp hi hin, Meets, known_behind_iff hvis hp hi hin hown,
    ← sees_and_known_iff ht]
  tauto

end

/-! ## All statements -/

section

variable {slots : UInt16} {bound vis dec : List VarKey}

theorem known_and {P Q vs ws s r}
    (hp : P ↔ Known slots bound vis (keysOf vs) ∧ s = true) (hq : Q ↔ Known slots bound vis (keysOf ws) ∧ r = true) :
    P ∧ Q ↔ Known slots bound vis (keysOf (vs ++ ws)) ∧ (s && r) = true := by
  rw [hp, hq, known_append, Bool.and_eq_true, and_and_and_comm]

theorem declares_declared (slots : UInt16) (bound : List VarKey) {k t} (hst : storesTo k t = true) :
    (∃ s, t = .simple s) ∧ declares (declared (declareNested slots bound t)) = [k] ∨
      (¬ ∃ s, t = .simple s) ∧ declares (declared (declareNested slots bound t)) = [] := by
  match t with
  | .simple s => exact .inl ⟨⟨s, rfl⟩, (declares_declared_simple hst).1⟩
  | .forLoop (some _) _ _ _ | .labeled _ _ => exact .inr ⟨by rintro ⟨_, _, _⟩, rfl⟩

mutual

theorem inScope_declareNested_iff {bound vis dec} (hvis : vis ⊆ bound) (hdec : dec ⊆ bound) :
    (t : Tree) → Plain t → (InScope slots vis dec (declareNested slots bound t) ↔
      (Sees slots vis (keysOf (namedVars t)) ∧ Known slots bound vis (keysOf (nestedVars [] t))) ∧
        settledNested slots bound t = true)
  | .ifElse _ t b, ⟨hpt, hpb⟩ =>
      (and_congr_right fun _ => known_and
        ((inScope_declareIn_iff 0 t rfl hpt (.start hvis) (.start hdec)).trans meets_start)
        (inScope_declareBlock_iff hvis hdec b hpb)).trans and_assoc.symm
  | .whileLoop _ b, hp | .doWhile b _, hp | .synchronized _ b, hp =>
      (and_congr_right fun _ =>
        (inScope_declareIn_iff 0 b rfl hp (.start hvis) (.start hdec)).trans meets_start).trans and_assoc.symm
  | .forLoop i e u b, ⟨hpi, hpu, hp⟩ => by
      have hb := (inScope_declareIn_iff 0 b rfl hp (.start hvis) (.start hdec)).trans meets_start
      rw [namedVars_forLoop, sees_append, sees_append]
      simp only [nestedVars, settledNested, declareNested, InScope, initVar_eq_nil hpi, inScopePart_iff hpi,
        inScopePart_iff hpu]
      tauto
  | .forEach v _ b, hp =>
      (and_congr_right fun _ => (inScope_declareIn_iff 0 b rfl hp (.start (cons_subset_cons v.key hvis))
        (.start (subset_cons_of_subset _ hdec))).trans (meets_start.trans
          (and_congr_left fun _ => known_bind))).trans and_assoc.symm
  | .switch _ _ arms, hp =>
      (and_congr_right fun _ => inScope_declareArms_iff hvis hdec arms hp).trans and_assoc.symm
  | .tryCatch _ b cs c, ⟨hpb, hpcs, hpc⟩ => by
      have hb := (inScope_declareIn_iff 0 b rfl hpb (.start hvis) (.start hdec)).trans meets_start
      have hall := known_and (known_and hb (inScope_declareClauses_iff hvis hdec cs hpcs))
        (inScope_declareBlock_iff hvis hdec c hpc)
      exact and_assoc.symm.trans (hall.trans (and_congr_left fun _ => (and_iff_right sees_nil).symm))
  | .labeled _ t, hp => inScope_declareNested_iff hvis hdec t hp
  | .simple _, _ => ⟨fun h => ⟨⟨h, known_nil⟩, rfl⟩, fun h => h.1.1⟩
  | .breakTo _, _ | .continueTo _, _ | .label _, _ | .goto _, _ | .comment _, _ =>
      iff_of_true trivial ⟨⟨sees_nil, known_nil⟩, rfl⟩

theorem inScope_declared_iff {bound vis dec k} (hl : isParamKey slots k = false)
    (hk : k ∈ bound) (hkv : k ∉ vis) (hkd : k ∉ dec) (hvis : vis ⊆ bound) (hdec : dec ⊆ bound) :
    (t : Tree) → Plain t → storesTo k t = true → (InScope slots vis dec (declared (declareNested slots bound t)) ↔
        ((Sees slots (k :: vis) (keysOf (namedVars t)) ∧
          Known slots bound (k :: vis) (keysOf (nestedVars [] t))) ∧ k ∉ keysOf (storeReads t)) ∧
        settledNested slots bound t = true)
  | .simple _, _, hst => by
      refine (inScope_declared_simple hst hl hkv hkd).trans ?_
      exact ⟨fun h => ⟨⟨⟨h.1, known_nil⟩, h.2⟩, rfl⟩, fun h => ⟨h.1.1.1, h.1.2⟩⟩
  | .forLoop (some (.simple s)) e u b, ⟨_, hpu, hp⟩, hst => by
      have hb := (inScope_declareIn_iff 0 b rfl hp (.start (cons_subset.mpr ⟨hk, hvis⟩))
        (.start (cons_subset.mpr ⟨hk, hdec⟩))).trans meets_start
      rw [namedVars_forLoop, sees_append, sees_append]
      simp only [nestedVars, settledNested, declareNested, declared, InScope, inScopePart_iff hpu,
        (declares_declared_simple (s := s) hst).2]
      have hstore := inScope_declared_simple (s := s) hst hl hkv hkd
      exact (and_congr hstore (and_congr_right fun _ => and_congr_right fun _ => hb)).trans (by tauto)
  | .labeled _ t, hp, hst => inScope_declared_iff hl hk hkv hkd hvis hdec t hp hst

theorem inScope_declareIn_iff {bound vis dec whole} : (i : Nat) → (ts : List Tree) →
    whole.drop i = ts → PlainList ts → Before slots bound whole i vis → Before slots bound whole i dec →
      (InScopeList slots vis dec (declareFrom slots bound whole i ts) ↔ Meets slots bound whole i ts vis)
  | i, [], hdrop, _, _, _ => by
      refine iff_of_true trivial ⟨known_nil, fun p hp hi => ?_, rfl⟩
      obtain ⟨t, ht, -⟩ := (placed_of_mem hp).at_index
      rw [getElem?_eq_none (Nat.le_trans (drop_eq_nil_iff.mp hdrop) hi)] at ht
      cases ht
  | i, t :: ts, hdrop, ⟨hpt, hpts⟩, hvis, hdec => by
      have ht : whole[i]? = some t := by rw [← head?_drop, hdrop, head?_cons]
      have htail : whole.drop (i + 1) = ts := by rw [← tail_drop, hdrop, tail_cons]
      rw [declareFrom, declareIn, withDeclarations, append_assoc]
      refine hdec.inScope_bare_iff.trans ?_
      by_cases hin : ∃ p ∈ placements slots bound whole, p.index = i ∧ p.inPlace = true
      · rw [if_pos (any_inPlace.mpr hin)]
        obtain ⟨p, hp, hi, hin⟩ := hin
        have hst := stores_of_mem ht hp hi hin
        have hown := declares_declared slots (boundIn slots bound whole) hst
        rw [meets_cons_iff_of_stores hdrop hvis hp hi hin hpt hown]
        have hplaced : ∀ k ∈ declares (declared (declareNested slots (boundIn slots bound whole) t)),
            ∃ p ∈ placements slots bound whole, p.index = i ∧ p.var.key = k := by
          intro k hk
          rcases hown with ⟨-, heq⟩ | ⟨-, heq⟩ <;> rw [heq] at hk
          · exact ⟨p, hp, hi, (mem_singleton.mp hk).symm⟩
          · cases hk
        refine and_congr ?_ (inScope_declareIn_iff (i + 1) ts htail hpts (hvis.next hplaced) (hdec.next hplaced))
        exact inScope_declared_iff (placed_of_mem hp).isLocal (mem_boundIn hp) (hvis.not_mem hp hi hin)
          (hdec.not_mem hp hi hin) hvis.subset_bare hdec.subset_bare t hpt hst
      · rw [if_neg fun h => hin (any_inPlace.mp h)]
        have hnone : ∀ p ∈ placements slots bound whole, p.index = i → p.inPlace = false :=
          fun p hp hi => Bool.eq_false_iff.mpr fun hip => hin ⟨p, hp, hi, hip⟩
        rw [meets_cons_iff ht hnone]
        have hplaced : ∀ k ∈ [], ∃ p ∈ placements slots bound whole, p.index = i ∧ p.var.key = k :=
          fun _ hk => (not_mem_nil hk).elim
        refine and_congr (inScope_declareNested_iff hvis.subset_bare hdec.subset_bare t hpt) ?_
        rw [append_eq, nil_append, declares_declareNested hpt]
        exact inScope_declareIn_iff (i + 1) ts htail hpts (hvis.next hplaced) (hdec.next hplaced)

theorem inScope_declareBlock_iff {bound vis dec} (hvis : vis ⊆ bound) (hdec : dec ⊆ bound) :
    (b : Option (List Tree)) → PlainBlock b → (InScopeBlock slots vis dec (declareBlock slots bound b) ↔
      Known slots bound vis (keysOf (varsBlock [] b)) ∧ settledBlock slots bound b = true)
  | none, _ => iff_of_true trivial ⟨known_nil, rfl⟩
  | some ts, hp => (inScope_declareIn_iff 0 ts rfl hp (.start hvis) (.start hdec)).trans meets_start

theorem inScope_declareArms_iff {bound vis dec} (hvis : vis ⊆ bound) (hdec : dec ⊆ bound) :
    (arms : List (Arm × List Tree)) → PlainArms arms → (InScopeArms slots vis dec (declareArms slots bound arms) ↔
        Known slots bound vis (keysOf (varsArms [] arms)) ∧ settledArms slots bound arms = true)
  | [], _ => iff_of_true trivial ⟨known_nil, rfl⟩
  | (_, b) :: rest, ⟨hp, hrest⟩ =>
      known_and ((inScope_declareIn_iff 0 b rfl hp (.start hvis) (.start hdec)).trans meets_start)
        (inScope_declareArms_iff hvis hdec rest hrest)

theorem inScope_declareClauses_iff {bound vis dec} (hvis : vis ⊆ bound) (hdec : dec ⊆ bound) :
    (cs : List (Clause × List Tree)) → PlainClauses cs → (InScopeClauses slots vis dec (declareClauses slots bound cs) ↔
        Known slots bound vis (keysOf (varsClauses [] cs)) ∧ settledClauses slots bound cs = true)
  | [], _ => iff_of_true trivial ⟨known_nil, rfl⟩
  | (c, b) :: rest, ⟨hp, hrest⟩ =>
      known_and ((inScope_declareIn_iff 0 b rfl hp (.start (cons_subset_cons c.var.key hvis))
        (.start (subset_cons_of_subset _ hdec))).trans (meets_start.trans (and_congr_left fun _ => known_bind)))
        (inScope_declareClauses_iff hvis hdec rest hrest)

end

end

end JvmLift.Sugar

import JvmLift.Proofs.Sugar.Passes
import JvmLift.Proofs.Tree.Lists

/-!
# Where the search for strings breaks off

The search for switches over strings goes over the positions of a list, and back by one when it finds a switch. One of
the two statements that it looks at is missing when a switch was found at the front of the list.
-/
namespace JvmLift.Sugar

variable {uses : VarUses} {t t₁ t₂ t₃ t₄ : Tree} {ts : List Tree}

/-! ## One position -/

theorem store?_of_stringSwitch? (h : stringSwitch? uses t₁ t₂ t₃ t₄ = some t) : t.store? = none := by
  obtain ⟨w, -, -, -, rfl⟩ := stringSwitch?_some h
  unfold StringWalk.recovered relabeled
  split <;> rfl

theorem stringSwitch?_eq_none (h : t₁.store? = none ∨ t₂.store? = none) : stringSwitch? uses t₁ t₂ t₃ t₄ = none := by
  have hnote {tmp s u} (hu : u.store? = none) : Subject.note tmp s u = none := by simp [Subject.note, hu]
  rcases h with h | h <;> simp [stringSwitch?, hnote h]

theorem stringSwitchAt?_append (front rest : List Tree) :
    stringSwitchAt? uses (front ++ t₁ :: t₂ :: t₃ :: t₄ :: rest) (front.length + 2) =
      some (stringSwitch? uses t₁ t₂ t₃ t₄) := by
  rw [stringSwitchAt?, if_neg (by omega)]
  simp

/-! ## The search -/

theorem recoverStringsFrom?_of_le {i : Nat} (h : ts.length ≤ i + 1) : recoverStringsFrom? uses ts i = some ts := by
  rw [recoverStringsFrom?, if_neg (Nat.not_lt.mpr h)]

theorem recoverStringsFrom?_of_none {i : Nat} (h : stringSwitchAt? uses ts i = some none) :
    recoverStringsFrom? uses ts i = recoverStringsFrom? uses ts (i + 1) := by
  by_cases hi : i + 1 < ts.length
  · rw [recoverStringsFrom?, if_pos hi, h]
  · rw [recoverStringsFrom?_of_le (Nat.not_lt.mp hi), recoverStringsFrom?_of_le (by omega)]

theorem recoverStringsFrom?_skip (uses : VarUses) (front rest : List Tree)
    (h : t₁.store? = none ∨ ∃ t₂ ∈ rest.head?, t₂.store? = none) :
    recoverStringsFrom? uses (front ++ t₁ :: rest) (front.length + 2) =
      recoverStringsFrom? uses (front ++ t₁ :: rest) (front.length + 3) := by
  rcases rest with _ | ⟨t₂, _ | ⟨t₃, _ | ⟨t₄, rest⟩⟩⟩
  case cons.cons.cons =>
    refine recoverStringsFrom?_of_none ?_
    rw [stringSwitchAt?_append, stringSwitch?_eq_none (by simpa using h)]
  all_goals rw [recoverStringsFrom?_of_le (by simp), recoverStringsFrom?_of_le (by simp)]

theorem recoverStringsFrom?_found (front rest : List Tree) (h : stringSwitch? uses t₁ t₂ t₃ t₄ = some t) :
    recoverStringsFrom? uses (front ++ t₁ :: t₂ :: t₃ :: t₄ :: rest) (front.length + 2) =
      recoverStringsFrom? uses (front ++ t :: rest) (front.length + 1) := by
  have hlt : front.length + 2 + 1 < (front ++ t₁ :: t₂ :: t₃ :: t₄ :: rest).length := by
    simp only [List.length_append, List.length_cons]
    omega
  rw [recoverStringsFrom?, if_pos hlt, stringSwitchAt?_append, h]
  simp [← List.drop_drop]

/-- Behind the first statement, the search gives what is found from the front to the back. -/
theorem recoverStringsFrom?_append (front : List Tree) (hfront : front ≠ []) (rest : List Tree) :
    recoverStringsFrom? uses (front ++ rest) (front.length + 2) = some (front ++ recoverStrings uses rest) := by
  fun_induction recoverStrings uses rest generalizing front with
  | case1 t₁ t₂ t₃ t₄ rest t ht ih =>
      obtain ⟨init, last, rfl⟩ := (List.eq_nil_or_concat front).resolve_left hfront
      have hstore := store?_of_stringSwitch? ht
      calc
        _ = recoverStringsFrom? uses (init ++ last :: t :: rest) (init.length + 2) := by
          simpa using recoverStringsFrom?_found (init ++ [last]) rest ht
        _ = recoverStringsFrom? uses (init ++ last :: t :: rest) (init.length + 3) :=
          recoverStringsFrom?_skip uses init (t :: rest) (.inr ⟨t, rfl, hstore⟩)
        _ = recoverStringsFrom? uses (init ++ last :: t :: rest) (init.length + 4) := by
          simpa using recoverStringsFrom?_skip uses (init ++ [last]) rest (.inl hstore)
        _ = _ := by simpa using ih (init ++ [last, t]) (by simp)
  | case2 t₁ t₂ t₃ t₄ rest hnone ih =>
      rw [recoverStringsFrom?_of_none ((stringSwitchAt?_append front rest).trans (congrArg some hnone))]
      simpa using ih (front ++ [t₁]) (by simp)
  | case3 rest hshort =>
      refine recoverStringsFrom?_of_le ?_
      rcases rest with _ | ⟨t₁, _ | ⟨t₂, _ | ⟨t₃, _ | ⟨t₄, rest⟩⟩⟩⟩
      case cons.cons.cons.cons => exact (hshort t₁ t₂ t₃ t₄ rest rfl).elim
      all_goals
        simp only [List.length_append, List.length_cons, List.length_nil]
        omega

/-- The list begins with a switch over a string, and on it follows a switch over a hash code that is not the last
statement. -/
def BreaksOff (uses : VarUses) : List Tree → Prop
  | t₁ :: t₂ :: t₃ :: t₄ :: t₅ :: _ :: _ => (stringSwitch? uses t₁ t₂ t₃ t₄).isSome ∧ (hashSwitch? t₅).isSome
  | _ => False

theorem recoverStrings?_of_breaksOff (h : BreaksOff uses ts) : recoverStrings? uses ts = none := by
  unfold BreaksOff at h
  split at h
  · obtain ⟨t, ht⟩ := Option.isSome_iff_exists.mp h.1
    refine (recoverStringsFrom?_found [] _ ht).trans ?_
    rw [recoverStringsFrom?]
    simp [stringSwitchAt?, h.2]
  · exact h.elim

theorem recoverStrings?_of_not_breaksOff (h : ¬BreaksOff uses ts) :
    recoverStrings? uses ts = some (recoverStrings uses ts) := by
  rcases ts with _ | ⟨t₁, _ | ⟨t₂, _ | ⟨t₃, _ | ⟨t₄, rest⟩⟩⟩⟩
  case cons.cons.cons.cons =>
    rw [recoverStrings]
    split
    · rename_i t ht
      have hsecond : recoverStringsFrom? uses (t :: rest) 1 = recoverStringsFrom? uses (t :: rest) 2 := by
        rcases rest with _ | ⟨t₅, _ | ⟨t₆, rest⟩⟩
        case cons.cons =>
          refine recoverStringsFrom?_of_none ?_
          simpa [stringSwitchAt?, BreaksOff, ht] using h
        all_goals rw [recoverStringsFrom?_of_le (by simp), recoverStringsFrom?_of_le (by simp)]
      calc
        _ = recoverStringsFrom? uses (t :: rest) 1 := recoverStringsFrom?_found [] rest ht
        _ = recoverStringsFrom? uses (t :: rest) 2 := hsecond
        _ = recoverStringsFrom? uses (t :: rest) 3 :=
          recoverStringsFrom?_skip uses [] rest (.inl (store?_of_stringSwitch? ht))
        _ = _ := recoverStringsFrom?_append [t] (by simp) rest
    · rename_i hnone
      refine (recoverStringsFrom?_of_none ?_).trans (recoverStringsFrom?_append [t₁] (by simp) _)
      exact (stringSwitchAt?_append [] rest).trans (congrArg some hnone)
  all_goals exact recoverStringsFrom?_of_le (by simp)

/-! ## All lists of a body -/

def SearchBreaksOff (ts : List Tree) : Prop :=
  ∃ l, Tree.Meets (recoverStrings (.ofStmts ts)) ts l ∧ BreaksOff (.ofStmts ts) l

theorem restricts_recoverStrings? (uses : VarUses) : Tree.Restricts (recoverStrings? uses) (recoverStrings uses) := by
  intro us vs h
  by_cases hb : BreaksOff uses us
  · cases (recoverStrings?_of_breaksOff hb).symm.trans h
  · exact Option.some.inj (h.symm.trans (recoverStrings?_of_not_breaksOff hb))

theorem runs_recoverStrings?_iff : Tree.Runs (recoverStrings uses) (recoverStrings? uses) ts ↔
    ∀ l, Tree.Meets (recoverStrings uses) ts l → ¬BreaksOff uses l := by
  constructor
  · intro h l hl hb
    cases (recoverStrings?_of_breaksOff hb).symm.trans (h l hl)
  · exact fun h l hl => recoverStrings?_of_not_breaksOff (h l hl)

theorem strings?_eq_some_iff {us : List Tree} : strings? ts = some us ↔ ¬SearchBreaksOff ts ∧ us = strings ts := by
  rw [strings?, Tree.eachList?_eq_some (restricts_recoverStrings? _), runs_recoverStrings?_iff]
  simp [SearchBreaksOff, strings]

variable {ctx : SugarContext} {o : SugarOptions} {body : MethodBody}

/-- The forms of the source language are given unless a search for strings breaks off. -/
theorem sugar?_eq_some_iff {out : MethodBody × List String} : sugar? ctx o body = some out ↔
    ¬(o.stringSwitch = true ∧ SearchBreaksOff (enums ctx o (valuesAndLoops ctx o body.stmts))) ∧
      out = sugar ctx o body := by
  unfold sugar? sugar
  cases o.stringSwitch with
  | true =>
      simp only [if_pos, bind_iff fun _ => strings?_eq_some_iff]
      simp [when, eq_comm]
  | false => simp [when, eq_comm]

theorem sugar?_eq_none_iff : sugar? ctx o body = none ↔
    o.stringSwitch = true ∧ SearchBreaksOff (enums ctx o (valuesAndLoops ctx o body.stmts)) :=
  eq_none_iff_of_some fun _ => sugar?_eq_some_iff

end JvmLift.Sugar

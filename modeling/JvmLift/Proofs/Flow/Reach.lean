import JvmLift.Flow.Loops
import Mathlib.Data.List.Chain
import Mathlib.Logic.Relation
import Mathlib.Tactic.ByContra

/-!
# Closures and reachability

`closure` finds what a start reaches, in as many rounds as there are nodes. Bodies of natural loops are
computed from closures; here these get their meaning in terms of paths.
-/
namespace JvmLift

open List

open Relation (ReflTransGen)

variable {b : BlockId}

theorem touches_or_avoids {r a} (d : BlockId) (h : ReflTransGen r a b) :
    ReflTransGen r a d ∨ ReflTransGen (fun x y => r x y ∧ y ≠ d) a b := by
  induction h with
  | refl => exact .inr .refl
  | tail hr hxy ih =>
      rename_i x y
      rcases ih with ih | ih
      · exact .inl ih
      · by_cases hy : y = d
        · exact .inl (hy ▸ hr.tail hxy)
        · exact .inr (ih.tail ⟨hxy, hy⟩)

/-- `path` leads from `a` to `b`, one step of `r` after the other. -/
structure IsPath (r : BlockId → BlockId → Prop) (a b : BlockId) (path : List BlockId) : Prop where
  head : path.head? = some a
  last : path.getLast? = some b
  steps : path.IsChain r

section

variable {r : BlockId → BlockId → Prop} {a b c d : BlockId} {path : List BlockId}

theorem IsPath.refl (r : BlockId → BlockId → Prop) (a : BlockId) : IsPath r a a [a] :=
  ⟨rfl, rfl, .singleton a⟩

theorem IsPath.tail (h : IsPath r a b path) (hbc : r b c) : IsPath r a c (path ++ [c]) := by
  refine ⟨?_, by simp, isChain_append.mpr ⟨h.steps, .singleton c, ?_⟩⟩
  · rw [head?_append, h.head]
    rfl
  · simpa [h.last] using hbc

theorem exists_isPath_within_iff {P : BlockId → Prop} :
    (∃ path, IsPath r a b path ∧ ∀ x ∈ path, P x) ↔ P a ∧ ReflTransGen (fun x y => r x y ∧ P y) a b := by
  constructor
  · rintro ⟨path, ⟨hhead, hlast, hsteps⟩, hP⟩
    induction path generalizing a with
    | nil => cases hhead
    | cons x path ih =>
        cases hhead
        refine ⟨hP x (mem_cons_self ..), ?_⟩
        cases path with
        | nil =>
            cases hlast
            exact .refl
        | cons y path =>
            obtain ⟨hxy, hsteps⟩ := isChain_cons_cons.mp hsteps
            obtain ⟨hy, hr⟩ := ih (fun z hz => hP z (mem_cons_of_mem _ hz)) rfl (by simpa using hlast) hsteps
            exact .head ⟨hxy, hy⟩ hr
  · rintro ⟨ha, hr⟩
    induction hr with
    | refl => exact ⟨[a], .refl r a, by simpa using ha⟩
    | tail _ hxy ih =>
        obtain ⟨path, h, hP⟩ := ih
        refine ⟨_, h.tail hxy.1, fun z hz => ?_⟩
        rcases mem_append.mp hz with hz | hz
        · exact hP z hz
        · exact mem_singleton.mp hz ▸ hxy.2

theorem exists_isPath_iff : (∃ path, IsPath r a b path) ↔ ReflTransGen r a b := by
  simpa using exists_isPath_within_iff (P := fun _ => True)

theorem exists_isPath_avoiding_iff :
    (∃ path, IsPath r a b path ∧ d ∉ path) ↔ a ≠ d ∧ ReflTransGen (fun x y => r x y ∧ y ≠ d) a b := by
  rw [← exists_isPath_within_iff (P := (· ≠ d))]
  refine exists_congr fun path => and_congr_right fun _ => ?_
  exact ⟨fun hd x hx heq => hd (heq ▸ hx), fun h hd => h d hd rfl⟩

end

/-! ## Closures -/

theorem BlockSet.contains_eq_false {s : BlockSet} : s.contains b = false ↔ b ∉ s := by
  rw [← Bool.not_eq_true, Std.TreeSet.contains_iff_mem]

section

variable {next : BlockId → List BlockId}

def freshFrom (next : BlockId → List BlockId) (seen : BlockSet) (frontier : List BlockId) : BlockSet :=
  .ofList ((frontier.flatMap next).filter fun b => !seen.contains b)

variable {seen : BlockSet} {frontier : List BlockId}

theorem mem_freshFrom : b ∈ freshFrom next seen frontier ↔ (∃ x ∈ frontier, b ∈ next x) ∧ b ∉ seen := by
  simp [freshFrom, BlockSet.contains_eq_false]

theorem mem_insertMany_set {s t : BlockSet} : b ∈ s.insertMany t.toList ↔ b ∈ s ∨ b ∈ t := by
  simp [Std.TreeSet.mem_insertMany_list]

theorem expand_succ (n : Nat) (seen : BlockSet) (frontier : List BlockId) : expand next (n + 1) seen frontier =
      if (freshFrom next seen frontier).isEmpty then seen
      else expand next n (seen.insertMany (freshFrom next seen frontier).toList)
        (freshFrom next seen frontier).toList := rfl

variable {n : Nat}

theorem mem_expand_of_mem (h : b ∈ seen) : b ∈ expand next n seen frontier := by
  induction n generalizing seen frontier with
  | zero => exact h
  | succ n ih =>
      rw [expand_succ]
      split
      · exact h
      · exact ih (mem_insertMany_set.mpr (.inl h))

theorem reaches_of_mem_expand (hf : ∀ x ∈ frontier, x ∈ seen) (h : b ∈ expand next n seen frontier) :
    ∃ a ∈ seen, ReflTransGen (fun x y => y ∈ next x) a b := by
  induction n generalizing seen frontier with
  | zero => exact ⟨b, h, .refl⟩
  | succ n ih =>
      rw [expand_succ] at h
      split at h
      · exact ⟨b, h, .refl⟩
      · obtain ⟨a, ha, hr⟩ := ih
          (fun x hx => mem_insertMany_set.mpr (.inr (Std.TreeSet.mem_toList.mp hx))) h
        rcases mem_insertMany_set.mp ha with ha | ha
        · exact ⟨a, ha, hr⟩
        · obtain ⟨⟨x, hx, hxa⟩, -⟩ := mem_freshFrom.mp ha
          exact ⟨x, hf x hx, .head hxa hr⟩

theorem countP_unseen_le (nodes : List BlockId) {seen' : BlockSet} (hsub : ∀ x ∈ seen, x ∈ seen') :
    nodes.countP (fun x => !seen'.contains x) ≤ nodes.countP (fun x => !seen.contains x) :=
  countP_mono_left fun x _ hx => by
    simp only [Bool.not_eq_true', BlockSet.contains_eq_false] at hx ⊢
    exact fun h => hx (hsub x h)

variable {nodes : List BlockId}

theorem countP_unseen_lt {seen' : BlockSet} (hsub : ∀ x ∈ seen, x ∈ seen') (hb : b ∈ nodes) (hnew : b ∉ seen)
    (hb' : b ∈ seen') : nodes.countP (fun x => !seen'.contains x) + 1 ≤ nodes.countP (fun x => !seen.contains x) := by
  obtain ⟨as, bs, rfl⟩ := append_of_mem hb
  have ha := countP_unseen_le as hsub
  have hb := countP_unseen_le bs hsub
  have h1 : seen.contains b = false := BlockSet.contains_eq_false.mpr hnew
  have h2 : seen'.contains b = true := hb'
  simp only [countP_append, countP_cons, h1, h2] at ha hb ⊢
  simp
  omega

variable (hnext : ∀ x ∈ nodes, ∀ y ∈ next x, y ∈ nodes)

include hnext

theorem expand_closed (hseen : ∀ x ∈ seen, x ∈ nodes)
    (hf : ∀ x ∈ frontier, x ∈ seen) (hdone : ∀ x ∈ seen, x ∉ frontier → ∀ y ∈ next x, y ∈ seen)
    (hn : nodes.countP (fun x => !seen.contains x) ≤ n) {x y : BlockId} (hx : x ∈ expand next n seen frontier)
    (hy : y ∈ next x) : y ∈ expand next n seen frontier := by
  induction n generalizing seen frontier with
  | zero =>
      have hall := countP_eq_zero.mp (Nat.le_zero.mp hn) y (hnext x (hseen x hx) y hy)
      simpa [expand] using hall
  | succ n ih =>
      rw [expand_succ] at hx ⊢
      split at hx
      · rename_i hempty
        rw [if_pos hempty]
        by_cases hxf : x ∈ frontier
        · by_contra hys
          exact Std.TreeSet.isEmpty_iff_forall_not_mem.mp hempty y
            (mem_freshFrom.mpr ⟨⟨x, hxf, hy⟩, hys⟩)
        · exact hdone x hx hxf y hy
      · rename_i hempty
        rw [if_neg hempty]
        have hnode : ∀ z ∈ freshFrom next seen frontier, z ∈ nodes := by
          intro z hz
          obtain ⟨⟨w, hw, hwz⟩, -⟩ := mem_freshFrom.mp hz
          exact hnext w (hseen w (hf w hw)) z hwz
        refine ih ?_ ?_ ?_ ?_ hx
        · intro z hz
          exact (mem_insertMany_set.mp hz).elim (hseen z) (hnode z)
        · intro z hz
          exact mem_insertMany_set.mpr (.inr (Std.TreeSet.mem_toList.mp hz))
        · -- what was seen before this round leads to what was found by now
          intro z hz hzf w hw
          have hzs : z ∈ seen := (mem_insertMany_set.mp hz).resolve_right fun h =>
            hzf (Std.TreeSet.mem_toList.mpr h)
          by_cases hws : w ∈ seen
          · exact mem_insertMany_set.mpr (.inl hws)
          · by_cases hzf' : z ∈ frontier
            · exact mem_insertMany_set.mpr (.inr (mem_freshFrom.mpr ⟨⟨z, hzf', hw⟩, hws⟩))
            · exact absurd (hdone z hzs hzf' w hw) hws
        · obtain ⟨z, hz⟩ := Std.TreeSet.isEmpty_eq_false_iff_exists_mem.mp (by simpa using hempty)
          have hsub : ∀ x ∈ seen, x ∈ seen.insertMany (freshFrom next seen frontier).toList :=
            fun x hx => mem_insertMany_set.mpr (.inl hx)
          have := countP_unseen_lt hsub (hnode z hz) (mem_freshFrom.mp hz).2
            (mem_insertMany_set.mpr (.inr hz))
          omega

theorem mem_closure_iff {start size} (hstart : ∀ x ∈ start, x ∈ nodes) (hsize : nodes.length ≤ size) :
    b ∈ closure next size start ↔ ∃ a ∈ start, ReflTransGen (fun x y => y ∈ next x) a b := by
  have hmem : ∀ x, x ∈ (.ofList start : BlockSet) ↔ x ∈ start := fun x => by simp
  constructor
  · intro h
    obtain ⟨a, ha, hr⟩ := reaches_of_mem_expand (fun x hx => (hmem x).mpr hx) h
    exact ⟨a, (hmem a).mp ha, hr⟩
  · rintro ⟨a, ha, hr⟩
    induction hr with
    | refl => exact mem_expand_of_mem ((hmem a).mpr ha)
    | tail _ hxy ih =>
        exact expand_closed hnext (fun x hx => hstart x ((hmem x).mp hx))
          (fun x hx => (hmem x).mpr hx) (fun x hx hxf => absurd ((hmem x).mp hx) hxf)
          (Nat.le_trans countP_le_length hsize) ih hxy

end

end JvmLift

import JvmLift.Flow.Dominators
import Mathlib.Tactic.ByContra

/-!
# Tables of dominators as trees

A table in which everything but the entry has a parent of lower rank is a tree below the entry. Two nodes meet at the
lowest node above both.
-/
namespace JvmLift.DomTable

/-- `a` is `b`, or it is found on the way up from `b`. -/
inductive Above (doms : DomTable) (a : BlockId) : BlockId → Prop
  | refl : Above doms a a
  | up {b c : BlockId} : doms[b]? = some c → Above doms a c → Above doms a b

structure Rooted (doms : DomTable) (rank : BlockId → Nat) (entry : BlockId) : Prop where
  root : doms[entry]? = some entry
  lower : ∀ {b c}, doms[b]? = some c → b ≠ entry → c ∈ doms ∧ rank c < rank b

variable {doms : DomTable} {rank : BlockId → Nat} {entry a b c x y : BlockId}

theorem mem_of_getElem? (h : doms[b]? = some c) : b ∈ doms := by
  rw [Std.TreeMap.mem_iff_isSome_getElem?, h]
  rfl

theorem exists_getElem? (h : b ∈ doms) : ∃ c, doms[b]? = some c :=
  ⟨_, Std.TreeMap.getElem?_eq_some_getElem h⟩

theorem getElem?_insert_ne (h : b ≠ a) : (doms.insert b c)[a]? = doms[a]? := by
  rw [Std.TreeMap.getElem?_insert, if_neg (by simpa using h)]

theorem mem_insert_iff : a ∈ doms.insert b c ↔ a = b ∨ a ∈ doms := by
  rw [Std.TreeMap.mem_insert, Std.LawfulEqCmp.compare_eq_iff_eq, eq_comm]

/-! ## The way up -/

theorem above_iff (h : doms[b]? = some c) : doms.Above a b ↔ a = b ∨ doms.Above a c := by
  constructor
  · rintro (_ | ⟨h', hac⟩)
    · exact .inl rfl
    · cases h.symm.trans h'
      exact .inr hac
  · rintro (rfl | hac)
    · exact .refl
    · exact .up h hac

theorem Above.trans (hab : doms.Above a b) (hbc : doms.Above b c) : doms.Above a c := by
  induction hbc with
  | refl => exact hab
  | up h _ ih => exact .up h ih

theorem Above.linear (ha : doms.Above a c) (hb : doms.Above b c) : doms.Above a b ∨ doms.Above b a := by
  induction ha with
  | refl => exact .inr hb
  | up h ha ih =>
      rcases (above_iff h).mp hb with rfl | hb
      · exact .inl (.up h ha)
      · exact ih hb

namespace Rooted

variable (hd : doms.Rooted rank entry)

include hd

theorem eq_entry (h : doms.Above a entry) : a = entry := by
  generalize hb : entry = b at h
  induction h with
  | refl => rfl
  | up h _ ih =>
      cases hb
      cases hd.root.symm.trans h
      exact ih rfl

theorem mem_up (h : doms[b]? = some c) : c ∈ doms := by
  by_cases hb : b = entry
  · cases hd.root.symm.trans (hb ▸ h)
    exact mem_of_getElem? hd.root
  · exact (hd.lower h hb).1

theorem mem_of_above (h : doms.Above a b) (hb : b ∈ doms) : a ∈ doms := by
  induction h with
  | refl => exact hb
  | up h _ ih => exact ih (hd.mem_up h)

theorem rank_lt (h : doms.Above a b) (hne : a ≠ b) : rank a < rank b := by
  induction h with
  | refl => exact absurd rfl hne
  | @up b c h hac ih =>
      by_cases hb : b = entry
      · exact absurd (hb ▸ hd.eq_entry (hb ▸ .up h hac)) hne
      · have hlt := (hd.lower h hb).2
        by_cases hc : a = c
        · exact hc ▸ hlt
        · exact Nat.lt_trans (ih hc) hlt

theorem rank_le (h : doms.Above a b) : rank a ≤ rank b := by
  by_cases hne : a = b
  · exact hne ▸ Nat.le_refl _
  · exact Nat.le_of_lt (hd.rank_lt h hne)

theorem not_above_of_rank_lt (h : rank b < rank a) : ¬doms.Above a b :=
  fun hab => Nat.not_lt.mpr (hd.rank_le hab) h

theorem above_of_rank_le (ha : doms.Above a c) (hb : doms.Above b c) (hle : rank a ≤ rank b) : doms.Above a b := by
  rcases ha.linear hb with h | h
  · exact h
  · by_cases hne : b = a
    · exact hne ▸ .refl
    · exact absurd (hd.rank_lt h hne) (Nat.not_lt.mpr hle)

theorem entry_above (hb : b ∈ doms) : doms.Above entry b := by
  induction hn : rank b using Nat.strongRecOn generalizing b with
  | ind n ih =>
      by_cases he : b = entry
      · exact he ▸ .refl
      · obtain ⟨c, hc⟩ := exists_getElem? hb
        obtain ⟨hmem, hlt⟩ := hd.lower hc he
        exact .up hc (ih (rank c) (hn ▸ hlt) hmem rfl)

/-! ## Meeting points -/

theorem exists_parent (ha : a ∈ doms) (hb : b ∈ doms) (hne : a ≠ b)
    (hle : rank b ≤ rank a) : ∃ c ∈ doms, doms[a]? = some c ∧ rank c < rank a := by
  obtain ⟨c, hc⟩ := exists_getElem? ha
  have he : a ≠ entry := by
    rintro rfl
    exact absurd (hd.rank_lt (hd.entry_above hb) hne) (Nat.not_lt.mpr hle)
  obtain ⟨hmem, hlt⟩ := hd.lower hc he
  exact ⟨c, hmem, hc, hlt⟩

theorem above_both_iff (hne : a ≠ b) (hle : rank b ≤ rank a) (hc : doms[a]? = some c) :
    doms.Above x c ∧ doms.Above x b ↔ doms.Above x a ∧ doms.Above x b := by
  rw [above_iff hc]
  constructor
  · exact fun h => ⟨.inr h.1, h.2⟩
  · rintro ⟨rfl | h, hb⟩
    · exact absurd (hd.rank_lt hb hne) (Nat.not_lt.mpr hle)
    · exact ⟨h, hb⟩

theorem meet_spec (ha : a ∈ doms) (hb : b ∈ doms) {n} (hn : rank a + rank b < n) :
    ∃ c ∈ doms, doms.meet rank n a b = some c ∧ ∀ x, doms.Above x c ↔ doms.Above x a ∧ doms.Above x b := by
  induction n generalizing a b with
  | zero => omega
  | succ n ih =>
      by_cases hab : a = b
      · exact ⟨a, ha, by simp [meet, hab], fun x => by simp [hab]⟩
      by_cases hlt : rank b < rank a
      · obtain ⟨c, hmem, hc, hrank⟩ := hd.exists_parent ha hb hab (Nat.le_of_lt hlt)
        have hca : c ≠ a := fun h => Nat.lt_irrefl _ (h ▸ hrank)
        obtain ⟨m, hm, heq, habove⟩ := ih hmem hb (by omega)
        refine ⟨m, hm, ?_, fun x => (habove x).trans (hd.above_both_iff hab (Nat.le_of_lt hlt) hc)⟩
        simp [meet, hab, hlt, Std.TreeMap.getD_eq_getD_getElem?, hc, hca, heq]
      · obtain ⟨c, hmem, hc, hrank⟩ := hd.exists_parent hb ha (Ne.symm hab) (Nat.not_lt.mp hlt)
        have hcb : c ≠ b := fun h => Nat.lt_irrefl _ (h ▸ hrank)
        obtain ⟨m, hm, heq, habove⟩ := ih ha hmem (by omega)
        refine ⟨m, hm, ?_, fun x => (habove x).trans ?_⟩
        · simp [meet, hab, hlt, Std.TreeMap.getD_eq_getD_getElem?, hc, hcb, heq]
        · rw [and_comm, hd.above_both_iff (Ne.symm hab) (Nat.not_lt.mp hlt) hc, and_comm]

theorem foldlM_meet {steps} (hsteps : ∀ x ∈ doms, 2 * rank x < steps)
    {rest} (hrest : ∀ q ∈ rest, q ∈ doms) (ha : a ∈ doms) : ∃ c ∈ doms, rest.foldlM (doms.meet rank steps) a = some c ∧
      ∀ x, doms.Above x c ↔ ∀ q ∈ a :: rest, doms.Above x q := by
  induction rest generalizing a with
  | nil => exact ⟨a, ha, rfl, fun x => by simp⟩
  | cons q rest ih =>
      have hq := hrest q (List.mem_cons_self ..)
      have hra := hsteps a ha
      have hrq := hsteps q hq
      obtain ⟨m, hm, heq, habove⟩ := hd.meet_spec ha hq (n := steps) (by omega)
      obtain ⟨c, hc, heq', habove'⟩ := ih (fun p hp => hrest p (List.mem_cons_of_mem _ hp)) hm
      refine ⟨c, hc, by rw [List.foldlM_cons, heq]; exact heq', fun x => ?_⟩
      rw [habove']
      simp [habove, and_assoc]

theorem climb_spec (hb : b ∈ doms) {n} (hn : rank b < n) :
    ∃ r, doms.climb a n b = some r ∧ (r = true ↔ doms.Above a b) := by
  induction n generalizing b with
  | zero => omega
  | succ n ih =>
      by_cases hab : a = b
      · exact ⟨true, by simp [climb, hab], by simp [hab, Above.refl]⟩
      obtain ⟨c, hc⟩ := exists_getElem? hb
      by_cases hcb : c = b
      · refine ⟨false, by simp [climb, hab, hc, hcb], ?_⟩
        have he : b = entry := by
          by_contra he
          exact Nat.lt_irrefl _ (hcb ▸ (hd.lower hc he).2)
        have hnot : ¬doms.Above a b := fun h => hab (he ▸ hd.eq_entry (he ▸ h))
        simp [hnot]
      · have he : b ≠ entry := by
          rintro rfl
          exact hcb (Option.some.inj (hc.symm.trans hd.root))
        obtain ⟨hmem, hlt⟩ := hd.lower hc he
        obtain ⟨r, hr, hiff⟩ := ih hmem (by omega)
        refine ⟨r, by simp [climb, hab, hc, hcb, hr], hiff.trans ?_⟩
        simp [above_iff hc, hab]

/-! ## Moving a node -/

theorem insert (hb : b ≠ entry) (hc : c ∈ doms) (hlt : rank c < rank b) : Rooted (doms.insert b c) rank entry where
  root := by rw [getElem?_insert_ne hb, hd.root]
  lower {x y} h hx := by
    by_cases hxb : b = x
    · subst hxb
      rw [Std.TreeMap.getElem?_insert_self] at h
      cases h
      exact ⟨mem_insert_iff.mpr (.inr hc), hlt⟩
    · rw [getElem?_insert_ne hxb] at h
      exact ⟨mem_insert_iff.mpr (.inr (hd.lower h hx).1), (hd.lower h hx).2⟩

theorem above_insert_of_rank_le (h : doms.Above x y) (hle : rank b ≤ rank x) : Above (doms.insert b c) x y := by
  induction h with
  | refl => exact .refl
  | @up y z hz hxz ih =>
      by_cases hxy : x = y
      · exact hxy ▸ .refl
      · have hby : b ≠ y := by
          rintro rfl
          exact absurd (hd.rank_lt (.up hz hxz) hxy) (Nat.not_lt.mpr hle)
        exact .up (by rw [getElem?_insert_ne hby, hz]) ih

theorem above_of_insert (hb : b ∈ doms → doms.Above c b) (hy : y ∈ doms)
    (h : Above (doms.insert b c) x y) : doms.Above x y := by
  induction h with
  | refl => exact .refl
  | @up y z hz _ ih =>
      by_cases hby : b = y
      · subst hby
        rw [Std.TreeMap.getElem?_insert_self] at hz
        cases hz
        have hcb := hb hy
        exact (ih (hd.mem_of_above hcb hy)).trans hcb
      · rw [getElem?_insert_ne hby] at hz
        exact .up hz (ih (hd.mem_up hz))

end Rooted

theorem Above.insert_of_not (h : doms.Above x y) (hb : ¬doms.Above b y) : Above (doms.insert b c) x y := by
  induction h with
  | refl => exact .refl
  | @up y z hz _ ih =>
      have hby : b ≠ y := fun h => hb (h ▸ .refl)
      exact .up (by rw [getElem?_insert_ne hby, hz]) (ih fun h => hb (.up hz h))

end JvmLift.DomTable

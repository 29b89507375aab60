import Mathlib.Data.List.Induction
import Mathlib.Data.List.Nodup

/-!
# Lists and options

Facts that are not about the program.
-/
namespace JvmLift

open List

variable {α β : Type}

/-! ## Options -/

section

variable {x : Option α} {a : α} {P : Prop}

theorem bind_iff (h : ∀ y, x = some y ↔ P ∧ y = a) {k : α → Option β} {z : β} :
    x >>= k = some z ↔ P ∧ k a = some z := by
  simp only [Option.bind_eq_bind, Option.bind_eq_some_iff, h]
  grind

theorem eq_none_iff_of_some (h : ∀ y, x = some y ↔ ¬P ∧ y = a) : x = none ↔ P := by
  rw [Option.eq_none_iff_forall_ne_some]
  simp only [ne_eq, h]
  exact ⟨fun hn => by_contra fun hp => hn a ⟨hp, rfl⟩, fun hp _ hy => hy.1 hp⟩

end

/-! ## Lists -/

theorem findIdx?_congr {α p q} {l : List α} (h : ∀ a ∈ l, p a = q a) : l.findIdx? p = l.findIdx? q := by
  induction l with
  | nil => rfl
  | cons a l ih =>
      rw [findIdx?_cons, findIdx?_cons, h a mem_cons_self, ih fun b hb => h b (mem_cons_of_mem a hb)]

theorem mem_filterMap_iff_mem {f : α → Option β} {a b} {l : List α} (h : ∀ x, f x = some b ↔ x = a) :
    b ∈ l.filterMap f ↔ a ∈ l := by
  simp [mem_filterMap, h]

section

variable [BEq β] [LawfulBEq β]

theorem mem_eraseRepsBy_loop {a b : β} {xs acc} :
    b ∈ eraseRepsBy.loop (· == ·) a xs acc ↔ b = a ∨ b ∈ xs ∨ b ∈ acc := by
  fun_induction eraseRepsBy.loop (· == ·) a xs acc with grind

theorem mem_eraseReps {b : β} {xs : List β} : b ∈ xs.eraseReps ↔ b ∈ xs := by
  unfold eraseReps
  cases xs with
  | nil => rfl
  | cons x xs => simp [eraseRepsBy, mem_eraseRepsBy_loop]

theorem eraseDups_concat (xs : List β) (x : β) :
    (xs ++ [x]).eraseDups = if x ∈ xs then xs.eraseDups else xs.eraseDups ++ [x] := by
  rw [eraseDups_append]
  split <;> simp_all [removeAll, eraseDups_cons]

theorem nodup_eraseDups (xs : List β) : xs.eraseDups.Nodup := by
  induction xs using reverseRecOn with
  | nil => simp
  | append_singleton xs x ih =>
      rw [eraseDups_concat]
      split
      · exact ih
      · rename_i hx
        apply nodup_append.mpr
        simp only [nodup_singleton, mem_singleton, mem_eraseDups]
        exact ⟨ih, trivial, fun a ha b hb heq => hx (hb ▸ heq ▸ ha)⟩

theorem filterMap_eraseDups (xs : List (Option β)) : xs.eraseDups.filterMap id = (xs.filterMap id).eraseDups := by
  induction xs using reverseRecOn with
  | nil => rfl
  | append_singleton xs x ih =>
      rw [eraseDups_concat, filterMap_append]
      cases x with
      | none =>
          rw [filterMap_cons_none rfl, filterMap_nil, append_nil, ← ih]
          split
          · rfl
          · rw [filterMap_append, filterMap_cons_none rfl, filterMap_nil, append_nil]
      | some a =>
          have hmem : some a ∈ xs ↔ a ∈ xs.filterMap id := by simp
          have hlast : [some a].filterMap id = [a] := rfl
          rw [hlast, eraseDups_concat, ← ih]
          simp only [hmem]
          split
          · rfl
          · rw [filterMap_append, hlast]

theorem flatMap_filter_perm {keys : List β} (hkeys : keys.Nodup) (key : α → β) {items}
    (h : ∀ x ∈ items, key x ∈ keys) : (keys.flatMap fun k => items.filter (key · == k)).Perm items := by
  induction keys generalizing items with
  | nil =>
      cases items with
      | nil => exact .nil
      | cons x xs => exact absurd (h x mem_cons_self) not_mem_nil
  | cons k keys ih =>
      obtain ⟨hk, hkeys⟩ := nodup_cons.mp hkeys
      -- The later keys find their items among those that the first one leaves.
      have hrest : (keys.flatMap fun k' => items.filter (key · == k')) =
          keys.flatMap fun k' => (items.filter fun x => !(key x == k)).filter (key · == k') := by
        apply flatMap_congr
        intro k' hk'
        rw [filter_filter]
        grind
      have hleft : ∀ x ∈ items.filter fun x => !(key x == k), key x ∈ keys := by
        grind
      rw [flatMap_cons, hrest]
      exact ((ih hkeys hleft).append_left _).trans (filter_append_perm _ items)

end

end JvmLift

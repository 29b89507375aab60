import JvmLift.Text.Grammar
import Mathlib.Data.List.TakeDrop

/-!
# What rules read

A rule reads written forms if it accepts nothing else, and accepts every one of them whenever what
comes behind cannot be taken for a part of it. Each lemma says this of one way to build rules.
-/
namespace JvmLift.Rule

open List

variable {α β : Type}

/-- `p` reads the written forms of the values that satisfy `ok`, in front of what `follow` allows. -/
structure Reads (p : Rule α) (ok : α → Prop) (write : α → List Char) (follow : List Char → Prop) :
    Prop where
  sound : ∀ {s x rest}, p s = some (x, rest) → ok x ∧ s = write x ++ rest
  complete : ∀ {x rest}, ok x → follow rest → p (write x ++ rest) = some (x, rest)

def both (p : Rule α) (q : Rule β) : Rule (α × β) := fun s => do
  let (x, s) ← p s
  let (y, s) ← q s
  return ((x, y), s)

/-! ## Single rules -/

variable {c : Char} {s rest : List Char}

theorem char_eq_some : char c s = some ((), rest) ↔ s = c :: rest := by
  cases s with
  | nil => simp [char]
  | cons d s => by_cases h : c = d <;> simp [char, eq_comm]

variable {p : Rule α}

theorem after_eq {d} : after c p (d :: s) = if c = d then p s else none := by
  by_cases h : c = d <;> simp [after, char, h]

theorem after_eq_some {r} : after c p s = some r ↔ ∃ t, s = c :: t ∧ p t = some r := by
  cases s with
  | nil => simp [after, char]
  | cons d s => by_cases h : c = d <;> simp [after_eq, eq_comm]

theorem before_eq_some {x} : before p c s = some (x, rest) ↔ p s = some (x, c :: rest) := by
  simp only [before, bind, Option.bind_eq_some_iff]
  constructor
  · rintro ⟨⟨y, mid⟩, hp, ⟨_, rest'⟩, hc, heq⟩
    obtain rfl : mid = c :: rest' := char_eq_some.1 hc
    cases heq
    exact hp
  · intro hp
    exact ⟨(x, c :: rest), hp, ((), rest), char_eq_some.2 rfl, rfl⟩

theorem map_eq_some {f : α → β} {y} : map f p s = some (y, rest) ↔ ∃ x, p s = some (x, rest) ∧ f x = y := by
  simp [map]

theorem both_eq_some {q : Rule β} {z} :
    both p q s = some (z, rest) ↔ ∃ mid, p s = some (z.1, mid) ∧ q mid = some (z.2, rest) := by
  simp only [both, bind, Option.bind_eq_some_iff]
  constructor
  · rintro ⟨⟨x, mid⟩, hx, ⟨y, rest⟩, hy, heq⟩
    cases heq
    exact ⟨mid, hx, hy⟩
  · rintro ⟨mid, hx, hy⟩
    exact ⟨_, hx, _, hy, rfl⟩

theorem run_eq_some {allowed x} : run allowed s = some (x, rest) ↔
      x ≠ "" ∧ x.toList = s.takeWhile allowed ∧ rest = s.dropWhile allowed := by
  rw [run, span_eq_takeWhile_dropWhile]
  split
  · next hnil =>
    rw [Prod.mk.injEq] at hnil
    simp +contextual [hnil.1]
  · next cs t hcons heq =>
    obtain ⟨rfl, rfl⟩ := heq
    have hne : s.takeWhile allowed ≠ [] := hcons
    rw [Option.some.injEq, Prod.mk.injEq]
    constructor
    · rintro ⟨rfl, rfl⟩
      simpa using hne
    · rintro ⟨-, hx, rfl⟩
      exact ⟨by rw [← hx, String.ofList_toList], rfl⟩

theorem reads_run (allowed : Char → Bool) :
    Reads (run allowed) (fun x => x ≠ "" ∧ ∀ c ∈ x.toList, allowed c = true) String.toList
      (fun rest => ∀ c ∈ rest.head?, allowed c = false) where
  sound hs := by
    obtain ⟨hne, hx, rfl⟩ := run_eq_some.1 hs
    refine ⟨⟨hne, fun c hc => ?_⟩, by rw [hx, takeWhile_append_dropWhile]⟩
    rw [hx] at hc
    exact all_eq_true.1 all_takeWhile c hc
  complete {x rest} hx hrest := by
    have hstop : rest.takeWhile allowed = [] ∧ rest.dropWhile allowed = rest := by
      cases rest with
      | nil => simp
      | cons c rest => simp [hrest c rfl]
    rw [run_eq_some, takeWhile_append_of_pos hx.2, dropWhile_append_of_pos hx.2, hstop.1,
      hstop.2, append_nil]
    exact ⟨hx.1, rfl, rfl⟩

/-! ## Composition -/

namespace Reads

variable {p q : Rule α} {ok ok' : α → Prop} {write : α → List Char} {follow : List Char → Prop}

section

variable (h : Reads p ok write follow)

include h

theorem before (hc : ∀ rest, follow (c :: rest)) : Reads (p.before c) ok (fun x => write x ++ [c]) (fun _ => True) where
  sound hs := by
    obtain ⟨hx, rfl⟩ := h.sound (before_eq_some.1 hs)
    exact ⟨hx, by simp⟩
  complete {x rest} hx _ := before_eq_some.2 (by simpa using h.complete hx (hc rest))

theorem after (c : Char) : Reads (Rule.after c p) ok (fun x => c :: write x) follow where
  sound hs := by
    obtain ⟨t, rfl, ht⟩ := after_eq_some.1 hs
    obtain ⟨hx, rfl⟩ := h.sound ht
    exact ⟨hx, rfl⟩
  complete hx hrest := after_eq_some.2 ⟨_, rfl, h.complete hx hrest⟩

theorem map {f : α → β} {write'}
    (hw : ∀ x, ok x → write' (f x) = write x) : Reads (p.map f) (fun y => ∃ x, ok x ∧ f x = y) write' follow where
  sound hs := by
    obtain ⟨x, hx, rfl⟩ := map_eq_some.1 hs
    obtain ⟨hok, rfl⟩ := h.sound hx
    exact ⟨⟨x, hok, rfl⟩, by rw [hw x hok]⟩
  complete := by
    rintro _ rest ⟨x, hx, rfl⟩ hrest
    exact map_eq_some.2 ⟨x, by rw [hw x hx, h.complete hx hrest], rfl⟩

theorem of_iff (hok : ∀ x, ok x ↔ ok' x) : Reads p ok' write follow where
  sound hs := (h.sound hs).imp_left (hok _).1
  complete hx := h.complete ((hok _).2 hx)

end

variable {follow' : List Char → Prop}

theorem both {q : Rule β} {ok' write'} (hp : Reads p ok write follow) (hq : Reads q ok' write' follow')
    (hnext : ∀ y rest, ok' y → follow' rest → follow (write' y ++ rest)) :
    Reads (p.both q) (fun z => ok z.1 ∧ ok' z.2) (fun z => write z.1 ++ write' z.2) follow' where
  sound hs := by
    obtain ⟨mid, hx, hy⟩ := both_eq_some.1 hs
    obtain ⟨hokx, rfl⟩ := hp.sound hx
    obtain ⟨hoky, rfl⟩ := hq.sound hy
    exact ⟨⟨hokx, hoky⟩, (append_assoc ..).symm⟩
  complete hz hrest := both_eq_some.2
    ⟨_, by rw [append_assoc, hp.complete hz.1 (hnext _ _ hz.2 hrest)], hq.complete hz.2 hrest⟩

theorem mono (h : Reads p ok write follow) (hf : ∀ rest, follow' rest → follow rest) : Reads p ok write follow' :=
  ⟨h.sound, fun hx hrest => h.complete hx (hf _ hrest)⟩

/-- A rule refuses what does not begin as its written forms do. -/
theorem refuses (h : Reads p ok write follow) {heads : List Char}
    (hb : ∀ x, ok x → ∃ c ∈ heads, ∃ s, write x = c :: s) (hc : c ∉ heads) (s : List Char) : p (c :: s) = none := by
  refine Option.eq_none_iff_forall_ne_some.2 fun r hr => ?_
  obtain ⟨hx, hs⟩ := h.sound hr
  obtain ⟨d, hd, s', hs'⟩ := hb _ hx
  rw [hs', cons_append, List.cons.injEq] at hs
  exact hc (hs.1 ▸ hd)

theorem orElse (hp : Reads p ok write follow) (hq : Reads q ok' write follow)
    (hrefuse : ∀ x rest, ok' x → p (write x ++ rest) = none) :
    Reads (p.orElse q) (fun x => ok x ∨ ok' x) write follow where
  sound hs := by
    obtain hs | ⟨-, hs⟩ := Option.or_eq_some_iff.1 hs
    · exact (hp.sound hs).imp_left .inl
    · exact (hq.sound hs).imp_left .inr
  complete hx hrest := Option.or_eq_some_iff.2 <| hx.imp (hp.complete · hrest) fun hx =>
    ⟨hrefuse _ _ hx, hq.complete hx hrest⟩

variable (h : Reads p ok write follow)

include h

theorem repeatUpTo (n : Nat) {xs} (hs : repeatUpTo p n s = (xs, rest)) :
    (∀ x ∈ xs, ok x) ∧ s = xs.flatMap write ++ rest := by
  induction n generalizing s xs with
  | zero =>
      cases hs
      simp
  | succ n ih =>
      rw [Rule.repeatUpTo] at hs
      split at hs
      · cases hs
        simp
      · next x t hx =>
        cases hs
        obtain ⟨hok, rfl⟩ := h.sound hx
        obtain ⟨hoks, ht⟩ := ih rfl
        exact ⟨forall_mem_cons.2 ⟨hok, hoks⟩, by rw [flatMap_cons, append_assoc, ← ht]⟩

section

variable (hnext : ∀ x rest, ok x → follow (write x ++ rest)) (hpos : ∀ x, ok x → write x ≠ [])

include hnext hpos

theorem repeatUpTo_complete (hrest : follow rest) (hstop : p rest = none) (xs : List α) {n}
    (hxs : ∀ x ∈ xs, ok x) (hn : (xs.flatMap write).length ≤ n) :
    Rule.repeatUpTo p n (xs.flatMap write ++ rest) = (xs, rest) := by
  induction xs generalizing n with
  | nil => cases n <;> simp [Rule.repeatUpTo, hstop]
  | cons x xs ih =>
      obtain ⟨hx, hxs⟩ := forall_mem_cons.1 hxs
      have hlen := length_pos_iff.2 (hpos x hx)
      rw [flatMap_cons, length_append] at hn
      have hfollow : follow (xs.flatMap write ++ rest) := by
        cases xs with
        | nil => exact hrest
        | cons y ys =>
            rw [flatMap_cons, append_assoc]
            exact hnext y _ (hxs y mem_cons_self)
      obtain ⟨n, rfl⟩ := Nat.exists_eq_add_one_of_ne_zero (show n ≠ 0 by omega)
      rw [flatMap_cons, append_assoc, Rule.repeatUpTo, h.complete hx hfollow]
      simp [ih hxs (show _ ≤ n by omega)]

theorem many : Reads (Rule.many p) (fun xs => ∀ x ∈ xs, ok x) (List.flatMap write)
      (fun rest => follow rest ∧ p rest = none) where
  sound hs := h.repeatUpTo _ (Option.some.inj hs)
  complete hxs hrest :=
    congrArg some (h.repeatUpTo_complete hnext hpos hrest.1 hrest.2 _ hxs (by simp))

theorem many1 : Reads (Rule.many1 p) (fun xs => xs ≠ [] ∧ ∀ x ∈ xs, ok x) (List.flatMap write)
      (fun rest => follow rest ∧ p rest = none) where
  sound {s xs rest} hs := by
    rw [Rule.many1] at hs
    split at hs
    · cases hs
    · next hne =>
      have hxs : xs ≠ [] := by
        rintro rfl
        exact hne rest hs
      obtain ⟨hoks, rfl⟩ := (h.many hnext hpos).sound hs
      exact ⟨⟨hxs, hoks⟩, rfl⟩
  complete {xs rest} hxs hrest := by
    rw [Rule.many1, (h.many hnext hpos).complete hxs.2 hrest]
    cases xs with
    | nil => exact absurd rfl hxs.1
    | cons => rfl

end

theorem optional : Reads (Rule.optional p) (fun o => ∀ x ∈ o, ok x) (fun o => o.elim [] write)
      (fun rest => follow rest ∧ p rest = none) where
  sound {s o rest} hs := by
    rw [Rule.optional] at hs
    split at hs
    · next x t hx =>
      cases hs
      obtain ⟨hok, rfl⟩ := h.sound hx
      simpa using hok
    · cases hs
      simp
  complete {o rest} ho hrest := by
    cases o with
    | none => simp [Rule.optional, hrest.2]
    | some x => simp [Rule.optional, h.complete (ho x rfl) hrest.1]

theorem whole (hend : follow []) {text x} : Rule.whole p text = some x ↔ ok x ∧ String.ofList (write x) = text := by
  have hwhole : Rule.whole p text = some x ↔ p text.toList = some (x, []) := by
    rw [Rule.whole]
    split
    · next y heq => simp [heq]
    · next hne => simpa using hne x
  rw [hwhole]
  constructor
  · intro hp
    obtain ⟨hx, htext⟩ := h.sound hp
    exact ⟨hx, by rw [append_nil] at htext; rw [← htext, String.ofList_toList]⟩
  · rintro ⟨hx, rfl⟩
    simpa using h.complete hx hend

end Reads

end JvmLift.Rule

import JvmLift.Proofs.Structure.Layout

/-!
# What folding does to the graph

The absorbed block is entered from its owner only, and the new exit of the owner leads wherever the two led before, so
control still gets from every block that is left to every other one as it did.
-/
namespace JvmLift

open List

open Relation (ReflTransGen)

def Block.Edge (blocks : List Block) (x y : BlockId) : Prop :=
  ∃ block ∈ blocks, block.id = x ∧ y ∈ block.succs

/-- Control gets from a block to another, leaving only blocks and entering only blocks that are
allowed. -/
def Block.ReachesBy (blocks : List Block) (leave enter : BlockId → Prop) : BlockId → BlockId → Prop :=
  ReflTransGen fun x y => (leave x ∧ enter y) ∧ Block.Edge blocks x y

/-- Blocks with names of their own, among them the entry, whose exits lead to blocks. -/
structure Block.IsMap (blocks : List Block) (entry : BlockId) : Prop where
  nodup : (blocks.map (·.id)).Nodup
  entry : ∃ b ∈ blocks, b.id = entry
  closed : ∀ b ∈ blocks, ∀ t ∈ b.succs, ∃ c ∈ blocks, c.id = t

namespace Fold

structure Absorbs (blocks : List Block) (kept : List BlockId) (b1 b2 : Block) (exit : Exit) :
    Prop where
  owner : b1 ∈ blocks
  gone : b2 ∈ blocks
  ne : b2.id ≠ b1.id
  free : b2.id ∉ kept
  alone : predCount blocks b2.id = 1
  bare : b2.stmts = []
  tests : ∃ e1 t1 f1 e2 t2 f2, b1.exit = .cond e1 t1 f1 ∧ b2.exit = .cond e2 t2 f2 ∧
    ((f1 = b2.id ∧ onFall e1 e2 t1 t2 f2 = some exit) ∨
      (t1 = b2.id ∧ onTaken e1 e2 f1 t2 f2 = some exit))

variable {blocks : List Block} {kept : List BlockId} {b1 b2 : Block} {exit : Exit} {owner : BlockId}

theorem bareTest?_some {b t f e} (h : bareTest? blocks kept owner b = some (e, t, f)) :
    b ≠ owner ∧ b ∉ kept ∧ predCount blocks b = 1 ∧
      ∃ b2 ∈ blocks, b2.id = b ∧ b2.stmts = [] ∧ b2.exit = .cond e t f := by
  unfold bareTest? at h
  split at h
  · cases h
  rename_i hb
  simp only [not_or, contains_eq_mem, decide_eq_true_eq, Decidable.not_not] at hb
  split at h
  · rename_i id e' t' f' stack hfind
    cases h
    have hid : id = b := by simpa using find?_some hfind
    exact ⟨hb.1, hb.2.1, hb.2.2, _, mem_of_find?_eq_some hfind, hid, rfl, rfl⟩
  · cases h

variable {gone : BlockId}

theorem absorbed?_some (hb : b1 ∈ blocks) (h : absorbed? blocks kept b1 = some (gone, exit)) :
    ∃ b2, Absorbs blocks kept b1 b2 exit ∧ b2.id = gone := by
  unfold absorbed? at h
  split at h
  · rename_i e1 t1 f1 he _
    rcases Option.or_eq_some_iff.mp h with h | ⟨-, h⟩
    all_goals
      simp only [Option.bind_eq_bind, Option.bind_eq_some_iff, Prod.exists] at h
      obtain ⟨e2, t2, f2, htest, _, hexit, rfl, rfl⟩ := h
      obtain ⟨hne, hfree, halone, b2, hmem, rfl, hbare, he2⟩ := bareTest?_some htest
      refine ⟨b2, ⟨hb, hmem, hne, hfree, halone, hbare, e1, _, _, e2, t2, f2, he, he2, ?_⟩, rfl⟩
    · exact .inl ⟨rfl, hexit⟩
    · exact .inr ⟨rfl, hexit⟩
  · cases h

theorem candidate?_some (h : candidate? blocks kept = some (owner, gone, exit)) :
    ∃ b1 b2, Absorbs blocks kept b1 b2 exit ∧ b1.id = owner ∧ b2.id = gone := by
  obtain ⟨b1, hb, h⟩ := exists_of_findSome?_eq_some h
  obtain ⟨⟨g, x⟩, h, heq⟩ := Option.map_eq_some_iff.mp h
  cases heq
  obtain ⟨b2, habs, rfl⟩ := absorbed?_some hb h
  exact ⟨b1, b2, habs, rfl, rfl⟩

theorem run_induction {motive : List Block → Prop}
    (hstep : ∀ blocks b1 b2 exit, Absorbs blocks kept b1 b2 exit → motive blocks →
      motive (absorb b1.id b2.id exit blocks)) (n : Nat) (h : motive blocks) : motive (run kept n blocks).1 := by
  induction n generalizing blocks with
  | zero => exact h
  | succ n ih =>
      unfold run
      split
      · exact h
      · rename_i hc
        obtain ⟨b1, b2, habs, rfl, rfl⟩ := candidate?_some hc
        exact ih (hstep _ _ _ _ habs h)

/-! ## One absorption -/

theorem map_id_absorb (owner gone : BlockId) :
    (absorb owner gone exit blocks).map (·.id) = (blocks.map (·.id)).filter (· ≠ gone) := by
  have hid : ∀ b : Block, (if b.id = owner then { b with exit } else b).id = b.id := by
    intro b
    split <;> rfl
  simp only [absorb, filter_map, List.map_map, Function.comp_def, hid]

section

variable (h : Absorbs blocks kept b1 b2 exit)

include h

theorem Absorbs.mem_succs : b2.id ∈ b1.succs := by
  obtain ⟨e1, t1, f1, _, _, _, he, -, hg⟩ := h.tests
  unfold Block.succs
  rw [he, Exit.mem_targets_cond]
  rcases hg with ⟨rfl, -⟩ | ⟨rfl, -⟩
  · exact .inr rfl
  · exact .inl rfl

theorem Absorbs.only_pred {x} (hx : Block.Edge blocks x b2.id) : x = b1.id := by
  obtain ⟨c, hc, rfl, hsucc⟩ := hx
  have hone := h.alone
  unfold predCount at hone
  rw [countP_eq_length_filter, length_eq_one_iff] at hone
  obtain ⟨d, hd⟩ := hone
  have honly : ∀ b ∈ blocks, b2.id ∈ b.succs → b = d := by
    intro b hb hs
    have : b ∈ blocks.filter (·.succs.contains b2.id) := mem_filter.mpr ⟨hb, by simpa using hs⟩
    rw [hd] at this
    exact mem_singleton.mp this
  rw [honly c hc hsucc, honly b1 h.owner h.mem_succs]

theorem Absorbs.not_mem_succs : b2.id ∉ b2.succs :=
  fun hs => h.ne (h.only_pred ⟨b2, h.gone, rfl, hs⟩)

end

variable {y : BlockId}

section

variable (h : Absorbs blocks kept b1 b2 exit)

include h

theorem Absorbs.exit_eq : ∃ e t f, exit = .cond e t f := by
  obtain ⟨_, _, _, _, _, _, -, -, ⟨-, hx⟩ | ⟨-, hx⟩⟩ := h.tests
  · unfold onFall at hx
    grind
  · unfold onTaken at hx
    grind

theorem Absorbs.mem_targets : y ∈ exit.targets ↔ (y ∈ b1.succs ∧ y ≠ b2.id) ∨ y ∈ b2.succs := by
  have hloop := h.not_mem_succs
  obtain ⟨e1, t1, f1, e2, t2, f2, he1, he2, hg⟩ := h.tests
  obtain ⟨e, t, f, rfl⟩ := h.exit_eq
  simp only [Block.succs, he1, he2, Exit.mem_targets_cond] at hloop ⊢
  rcases hg with ⟨hgone, hx⟩ | ⟨hgone, hx⟩
  · unfold onFall at hx
    grind
  · unfold onTaken at hx
    grind

theorem Absorbs.edge_owner (hy : (y ∈ b1.succs ∧ y ≠ b2.id) ∨ y ∈ b2.succs) :
    Block.Edge (absorb b1.id b2.id exit blocks) b1.id y := by
  refine ⟨{ b1 with exit }, ?_, rfl, h.mem_targets.mpr hy⟩
  exact mem_filter.mpr ⟨mem_map.mpr ⟨b1, h.owner, if_pos rfl⟩, by simpa using h.ne.symm⟩

theorem Absorbs.edge (hn : (blocks.map (·.id)).Nodup) {x}
    (hx : x ≠ b2.id) (hy : y ≠ b2.id) (he : Block.Edge blocks x y) :
    Block.Edge (absorb b1.id b2.id exit blocks) x y := by
  obtain ⟨c, hc, rfl, hs⟩ := he
  by_cases howner : c.id = b1.id
  · have hcb : c = b1 := Block.eq_of_id hn hc h.owner howner
    rw [howner]
    exact h.edge_owner (.inl ⟨hcb ▸ hs, hy⟩)
  · refine ⟨c, mem_filter.mpr ⟨mem_map.mpr ⟨c, hc, if_neg howner⟩, ?_⟩, rfl, hs⟩
    simpa using hx

end

theorem nodup_absorb (owner gone : BlockId) (hn : (blocks.map (·.id)).Nodup) :
    ((absorb owner gone exit blocks).map (·.id)).Nodup := by
  rw [map_id_absorb]
  exact hn.filter _

theorem mem_absorb {c} (hc : c ∈ absorb owner gone exit blocks) :
    c.id ≠ gone ∧ ∃ b ∈ blocks, c.id = b.id ∧ (c = b ∧ b.id ≠ owner ∨ b.id = owner ∧ c.exit = exit) := by
  obtain ⟨hm, hne⟩ := mem_filter.mp hc
  obtain ⟨b, hb, rfl⟩ := mem_map.mp hm
  refine ⟨by simpa using hne, b, hb, ?_⟩
  split
  · exact ⟨rfl, .inr ⟨‹_›, rfl⟩⟩
  · exact ⟨rfl, .inl ⟨rfl, ‹_›⟩⟩

theorem Absorbs.isMap (h : Absorbs blocks kept b1 b2 exit) {entry}
    (hm : Block.IsMap blocks entry) (hentry : entry ≠ b2.id) : Block.IsMap (absorb b1.id b2.id exit blocks) entry := by
  have hleft : ∀ t ≠ b2.id, (∃ c ∈ blocks, c.id = t) →
      ∃ c ∈ absorb b1.id b2.id exit blocks, c.id = t := by
    rintro t ht ⟨c, hc, hid⟩
    have hmem : t ∈ (absorb b1.id b2.id exit blocks).map (·.id) := by
      rw [map_id_absorb]
      exact mem_filter.mpr ⟨mem_map.mpr ⟨c, hc, hid⟩, by simpa using ht⟩
    exact mem_map.mp hmem
  refine ⟨nodup_absorb _ _ hm.nodup, hleft entry hentry hm.entry, fun c hc t ht => ?_⟩
  obtain ⟨-, b, hb, -, ⟨rfl, howner⟩ | ⟨-, hexit⟩⟩ := mem_absorb hc
  · refine hleft t (fun heq => ?_) (hm.closed c hb t ht)
    exact howner (h.only_pred ⟨c, hb, rfl, heq ▸ ht⟩)
  · rw [Block.succs, hexit, h.mem_targets] at ht
    rcases ht with ⟨ht, htne⟩ | ht
    · exact hleft t htne (hm.closed b1 h.owner t ht)
    · exact hleft t (fun heq => h.not_mem_succs (heq ▸ ht)) (hm.closed b2 h.gone t ht)

/-! ## Reaching blocks -/

variable {leave enter : BlockId → Prop} {entry x : BlockId}

theorem Absorbs.reachesBy (h : Absorbs blocks kept b1 b2 exit) (hn : (blocks.map (·.id)).Nodup)
    (hentry : entry ≠ b2.id) (hr : Block.ReachesBy blocks leave enter entry x) :
    (x ≠ b2.id → Block.ReachesBy (absorb b1.id b2.id exit blocks) leave enter entry x) ∧ (x = b2.id → leave b1.id ∧
        Block.ReachesBy (absorb b1.id b2.id exit blocks) leave enter entry b1.id) := by
  induction hr with
  | refl => exact ⟨fun _ => .refl, fun h => absurd h hentry⟩
  | @tail y z _ hstep ih =>
      obtain ⟨⟨hleave, henter⟩, hedge⟩ := hstep
      by_cases hy : y = b2.id
      · obtain ⟨howner, hpath⟩ := ih.2 hy
        obtain ⟨c, hc, hcy, hz⟩ := hedge
        have hcb : c = b2 := Block.eq_of_id hn hc h.gone (hcy.trans hy)
        rw [hcb] at hz
        refine ⟨fun _ => hpath.tail ⟨⟨howner, henter⟩, h.edge_owner (.inr hz)⟩, fun hz' => ?_⟩
        exact absurd (hz' ▸ hz) h.not_mem_succs
      · refine ⟨fun hz => (ih.1 hy).tail ⟨⟨hleave, henter⟩, h.edge hn hy hz hedge⟩, fun hz => ?_⟩
        have hyb := h.only_pred (hz ▸ hedge)
        exact ⟨hyb ▸ hleave, hyb ▸ ih.1 hy⟩

theorem nodup_run (n : Nat) (hn : (blocks.map (·.id)).Nodup) : ((run kept n blocks).1.map (·.id)).Nodup :=
  run_induction (motive := fun bs => (bs.map (·.id)).Nodup)
    (fun _ b1 b2 _ _ hn => nodup_absorb b1.id b2.id hn) n hn

theorem reachesBy_run (hn : (blocks.map (·.id)).Nodup) (n : Nat) (hr : Block.ReachesBy blocks leave enter entry x)
    (hentry : entry ∈ (run kept n blocks).1.map (·.id)) (hx : x ∈ (run kept n blocks).1.map (·.id)) :
    Block.ReachesBy (run kept n blocks).1 leave enter entry x := by
  refine (run_induction (motive := fun bs => (bs.map (·.id)).Nodup ∧ (entry ∈ bs.map (·.id) →
    x ∈ bs.map (·.id) → Block.ReachesBy bs leave enter entry x)) ?_ n ⟨hn, fun _ _ => hr⟩).2 hentry hx
  intro bs b1 b2 exit habs ⟨hn, hr⟩
  refine ⟨nodup_absorb b1.id b2.id hn, fun hentry hx => ?_⟩
  rw [map_id_absorb] at hentry hx
  simp only [mem_filter, decide_eq_true_eq] at hentry hx
  exact (habs.reachesBy hn hentry.2 (hr hentry.1 hx.1)).1 hx.2

theorem isMap_run (hm : Block.IsMap blocks entry) (n : Nat)
    (hentry : entry ∈ (run kept n blocks).1.map (·.id)) : Block.IsMap (run kept n blocks).1 entry := by
  refine run_induction (motive := fun bs => entry ∈ bs.map (·.id) → Block.IsMap bs entry) ?_ n
    (fun _ => hm) hentry
  intro bs b1 b2 exit habs hm hentry
  rw [map_id_absorb] at hentry
  simp only [mem_filter, decide_eq_true_eq] at hentry
  exact habs.isMap (hm hentry.1) hentry.2

theorem mem_run (n : Nat) (hkept : x ∈ kept) (hx : x ∈ blocks.map (·.id)) : x ∈ (run kept n blocks).1.map (·.id) := by
  refine run_induction (motive := fun bs => x ∈ bs.map (·.id)) ?_ n hx
  intro bs b1 b2 exit habs hx
  rw [map_id_absorb]
  exact mem_filter.mpr ⟨hx, by simpa using fun h : x = b2.id => habs.free (h ▸ hkept)⟩

end Fold

end JvmLift

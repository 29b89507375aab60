import JvmLift.Proofs.Flow.Dominance
import JvmLift.Proofs.Flow.DomTree
import Mathlib.Algebra.Order.BigOperators.Group.List
import Mathlib.Algebra.Order.Ring.Nat

/-!
# The table of dominators is exact

What cuts a node off stays above it in every pass. A pass that changes nothing leaves every node where its
predecessors meet, and there is such a pass since no node moves down: ranks carry this through the middle of a pass,
see `Refining.fresh`.
-/
namespace JvmLift.FlowGraph

open List

open Relation (ReflTransGen)

variable {g : FlowGraph} {a b c q x : BlockId} {doms : DomTable}

/-! ## Ranks -/

def rank (g : FlowGraph) (b : BlockId) : Nat :=
  (ranks g.reversePostorder).getD b g.reversePostorder.length

variable {i : Nat}

theorem rank_eq (h : g.reversePostorder[i]? = some b) : g.rank b = i := by
  refine Std.TreeMap.getD_ofList_of_mem (by simp) ?_ (mem_zipIdx_iff_getElem?.mpr h)
  have hnodup : (g.reversePostorder.zipIdx.map (·.1)).Nodup := by
    rw [zipIdx_map_fst]
    exact g.nodup_reversePostorder
  exact (pairwise_map.mp hnodup).imp fun hne heq => hne (Std.LawfulEqCmp.eq_of_compare heq)

theorem getElem?_rank (hb : b ∈ g.reversePostorder) : g.reversePostorder[g.rank b]? = some b := by
  obtain ⟨i, hi⟩ := getElem?_of_mem hb
  rw [rank_eq hi, hi]

theorem rank_lt_length (hb : b ∈ g.reversePostorder) : g.rank b < g.reversePostorder.length :=
  (List.getElem?_eq_some_iff.mp (getElem?_rank hb)).1

theorem rank_inj (hb : b ∈ g.reversePostorder) (hc : c ∈ g.reversePostorder) (h : g.rank b = g.rank c) : b = c := by
  have heq := getElem?_rank hb
  rw [h, getElem?_rank hc] at heq
  exact (Option.some.inj heq).symm

theorem rank_append {as bs} (h : g.reversePostorder = as ++ b :: bs) : g.rank b = as.length :=
  rank_eq (by simp [h])

theorem rank_entry (he : g.entry ∈ g.reversePostorder) : g.rank g.entry = 0 := by
  cases h : g.reversePostorder with
  | nil =>
      rw [h] at he
      cases he
  | cons x bs =>
      have hfirst := g.linked_reversePostorder [] x bs h
      simp only [mem_singleton, not_mem_nil, false_and, exists_false, or_false] at hfirst
      exact rank_eq (by simp [h, hfirst])

theorem exists_pred_rank_lt (hb : b ∈ g.reversePostorder) (hne : b ≠ g.entry) :
    ∃ q ∈ g.reversePostorder, b ∈ g.allSuccs q ∧ g.rank q < g.rank b := by
  obtain ⟨as, bs, h⟩ := append_of_mem hb
  rcases g.linked_reversePostorder as b bs h with heq | ⟨q, hq, hqb⟩
  · exact absurd (mem_singleton.mp heq) hne
  · obtain ⟨as1, as2, rfl⟩ := append_of_mem hq
    refine ⟨q, h ▸ mem_append_left _ hq, hqb, ?_⟩
    have h' : g.reversePostorder = as1 ++ q :: (as2 ++ b :: bs) := by simp [h]
    rw [rank_append h, rank_append h']
    simp

theorem mem_predsIn {order} (hnodup : order.Nodup) (hb : b ∈ order) :
    q ∈ (g.predsIn order).getD b [] ↔ q ∈ order ∧ b ∈ g.allSuccs q := by
  unfold predsIn
  have hdistinct : (order.map fun b => (b, order.filter fun p => (g.allSuccs p).contains b)).Pairwise
      fun p q => ¬compare p.1 q.1 = .eq := by
    rw [pairwise_map]
    exact hnodup.imp fun hne heq => hne (Std.LawfulEqCmp.eq_of_compare heq)
  have hmem : (b, order.filter fun p => (g.allSuccs p).contains b) ∈
      order.map fun b => (b, order.filter fun p => (g.allSuccs p).contains b) :=
    mem_map.mpr ⟨b, hb, rfl⟩
  rw [Std.TreeMap.getD_ofList_of_mem (by simp) hdistinct hmem]
  simp

/-! ## What a pass keeps -/

/-- What holds of the table when a pass comes to the node of rank `i`. -/
structure Refining (g : FlowGraph) (i : Nat) (doms : DomTable) : Prop where
  rooted : doms.Rooted g.rank g.entry
  ordered : ∀ b ∈ doms, b ∈ g.reversePostorder
  reached : ∀ b ∈ g.reversePostorder, g.rank b < i → b ∈ doms
  closed : ∀ b ∈ doms, ∀ q ∈ g.reversePostorder, g.rank q < g.rank b → q ∈ doms
  /-- Parents keep what cuts their children off. -/
  cuts : ∀ {a b c}, doms[b]? = some c → b ≠ g.entry → g.Cuts a b → a = b ∨ g.Cuts a c
  /-- What is above all predecessors is above the parent. -/
  covers : ∀ {b c x}, doms[b]? = some c → b ≠ g.entry →
    (∀ q ∈ doms, b ∈ g.allSuccs q → doms.Above x q) → doms.Above x c
  /-- The parent is above the predecessors that come before. Between the moves of the parent and of the
  node, in this order, this may not hold. -/
  fresh : ∀ {b c q}, doms[b]? = some c → b ≠ g.entry → q ∈ doms → b ∈ g.allSuccs q →
    g.rank q < g.rank b → g.rank b < i ∨ i ≤ g.rank c → doms.Above c q

def Met (g : FlowGraph) (doms : DomTable) (b : BlockId) : Prop :=
  ∃ c, doms[b]? = some c ∧ ∀ x, doms.Above x c ↔ ∀ q ∈ doms, b ∈ g.allSuccs q → doms.Above x q

theorem refining_start (he : g.entry ∈ g.reversePostorder) : g.Refining 0 (.ofList [(g.entry, g.entry)]) := by
  have hget {b c : BlockId} (h : (.ofList [(g.entry, g.entry)] : DomTable)[b]? = some c) : b = g.entry := by
    by_contra hne
    rw [Std.TreeMap.ofList_singleton, DomTable.getElem?_insert_ne (Ne.symm hne)] at h
    simp at h
  have hmem {b : BlockId} (h : b ∈ (.ofList [(g.entry, g.entry)] : DomTable)) : b = g.entry := by
    obtain ⟨c, hc⟩ := DomTable.exists_getElem? h
    exact hget hc
  refine ⟨⟨?_, fun h hne => absurd (hget h) hne⟩, fun b hb => hmem hb ▸ he, fun b _ hlt => absurd hlt (by omega),
    fun b hb q _ hlt => ?_, fun h hne => absurd (hget h) hne, fun h hne => absurd (hget h) hne,
    fun h hne => absurd (hget h) hne⟩
  · rw [Std.TreeMap.ofList_singleton, Std.TreeMap.getElem?_insert_self]
  · rw [hmem hb, rank_entry he] at hlt
    omega

namespace Refining

variable {i : Nat}

section

variable (h : g.Refining i doms)

include h

theorem above_of_cuts (hb : b ∈ doms) (hcut : g.Cuts a b) : doms.Above a b := by
  induction hn : g.rank b using Nat.strongRecOn generalizing b with
  | ind n ih =>
      by_cases hentry : b = g.entry
      · by_cases hab : a = b
        · exact hab ▸ .refl
        · exact absurd ⟨fun heq => hab (heq ▸ hentry.symm), hentry ▸ .refl⟩ hcut
      · obtain ⟨c, hc⟩ := DomTable.exists_getElem? hb
        rcases h.cuts hc hentry hcut with rfl | hcut
        · exact .refl
        · obtain ⟨hmem, hlt⟩ := h.rooted.lower hc hentry
          exact .up hc (ih (g.rank c) (hn ▸ hlt) hmem hcut rfl)

theorem cuts_of_above (hc : doms.Above c b) (hcut : g.Cuts a b) (hle : g.rank a ≤ g.rank c) : g.Cuts a c := by
  induction hc with
  | refl => exact hcut
  | @up b d hd hcd ih =>
      by_cases hentry : b = g.entry
      · have heq : c = b := hentry ▸ h.rooted.eq_entry (hentry ▸ .up hd hcd)
        exact heq ▸ hcut
      · rcases h.cuts hd hentry hcut with rfl | hcut
        · have hlt := (h.rooted.lower hd hentry).2
          exact absurd (h.rooted.rank_le hcd) (by omega)
        · exact ih hcut

theorem exists_pred_mem (hb : b ∈ g.reversePostorder) (hne : b ≠ g.entry)
    (hbi : b ∈ doms ∨ g.rank b = i) : ∃ q ∈ doms, b ∈ g.allSuccs q ∧ g.rank q < g.rank b := by
  obtain ⟨q, hq, hqb, hlt⟩ := exists_pred_rank_lt hb hne
  refine ⟨q, ?_, hqb, hlt⟩
  rcases hbi with hb | rfl
  · exact h.closed b hb q hq hlt
  · exact h.reached q hq hlt

theorem advance (hb : b ∈ g.reversePostorder) (hi : g.rank b = i) (hmem : b ∈ doms)
    (hmet : b ≠ g.entry → g.Met doms b) : g.Refining (i + 1) doms := by
  refine ⟨h.rooted, h.ordered, fun y hy hlt => ?_, h.closed, h.cuts, h.covers, fun {y c q} hc hne hq hqy hlt hi' => ?_⟩
  · by_cases hyi : g.rank y = i
    · exact rank_inj hb hy (hi.trans hyi.symm) ▸ hmem
    · exact h.reached y hy (by omega)
  · by_cases hyi : g.rank y = i
    · obtain rfl := rank_inj hb (h.ordered y (DomTable.mem_of_getElem? hc)) (hi.trans hyi.symm)
      obtain ⟨d, hd, hmet⟩ := hmet hne
      cases hc.symm.trans hd
      exact (hmet c).mp .refl q hq hqy
    · exact h.fresh hc hne hq hqy hlt (by omega)

end

theorem restart (h : g.Refining g.reversePostorder.length doms) : g.Refining 0 doms where
  rooted := h.rooted
  ordered := h.ordered
  reached _ _ hlt := absurd hlt (Nat.not_lt_zero _)
  closed := h.closed
  cuts := h.cuts
  covers := h.covers
  fresh hc hne hq hqb hlt _ :=
    h.fresh hc hne hq hqb hlt (.inl (rank_lt_length (h.ordered _ (DomTable.mem_of_getElem? hc))))

end Refining

/-! ## Moving the node whose turn it is -/

/-- It is the turn of `b`, and those of its predecessors that are in the table meet at `c`. -/
structure Turn (g : FlowGraph) (i : Nat) (doms : DomTable) (b c : BlockId) : Prop where
  refining : g.Refining i doms
  mem : b ∈ g.reversePostorder
  rank : g.rank b = i
  ne : b ≠ g.entry
  target : c ∈ doms
  meet : ∀ x, doms.Above x c ↔ ∀ q ∈ doms, b ∈ g.allSuccs q → doms.Above x q

namespace Turn

variable {i : Nat} {y d : BlockId}

variable (h : g.Turn i doms b c)

include h

theorem above_pred (hq : q ∈ doms) (hqb : b ∈ g.allSuccs q) : doms.Above c q :=
  (h.meet c).mp .refl q hq hqb

theorem rank_lt : g.rank c < g.rank b := by
  obtain ⟨q, hq, hqb, hlt⟩ := h.refining.exists_pred_mem h.mem h.ne (.inr h.rank)
  exact Nat.lt_of_le_of_lt (h.refining.rooted.rank_le (h.above_pred hq hqb)) hlt

theorem above_parent (hd : doms[b]? = some d) : doms.Above c d :=
  h.refining.covers hd h.ne fun _ => h.above_pred

theorem above_of_insert (hy : y ∈ doms) (hx : DomTable.Above (doms.insert b c) x y) : doms.Above x y := by
  refine h.refining.rooted.above_of_insert (fun hb => ?_) hy hx
  obtain ⟨d, hd⟩ := DomTable.exists_getElem? hb
  exact .up hd (h.above_parent hd)

section

variable (hd : (doms.insert b c)[y]? = some d) (hy : y ≠ g.entry)

include hd hy

theorem cuts_insert (hcut : g.Cuts a y) : a = y ∨ g.Cuts a d := by
  by_cases hby : b = y
  · subst hby
    rw [Std.TreeMap.getElem?_insert_self] at hd
    cases hd
    by_cases hab : a = b
    · exact .inl hab
    have hpred {q : BlockId} (hqb : b ∈ g.allSuccs q) : g.Cuts a q := hcut.pred hqb (Ne.symm hab)
    have hac : doms.Above a c := (h.meet a).mpr fun q hq hqb => h.refining.above_of_cuts hq (hpred hqb)
    obtain ⟨q, hq, hqb, -⟩ := h.refining.exists_pred_mem h.mem h.ne (.inr h.rank)
    exact .inr (h.refining.cuts_of_above (h.above_pred hq hqb) (hpred hqb) (h.refining.rooted.rank_le hac))
  · rw [DomTable.getElem?_insert_ne hby] at hd
    exact h.refining.cuts hd hy hcut

theorem covers_insert (hx : ∀ q ∈ doms.insert b c, y ∈ g.allSuccs q → DomTable.Above (doms.insert b c) x q) :
    DomTable.Above (doms.insert b c) x d := by
  have hrooted := h.refining.rooted
  have hx {q : BlockId} (hq : q ∈ doms) (hqy : y ∈ g.allSuccs q) : DomTable.Above (doms.insert b c) x q :=
    hx q (DomTable.mem_insert_iff.mpr (.inr hq)) hqy
  have hx' : ∀ q ∈ doms, y ∈ g.allSuccs q → doms.Above x q := fun q hq hqy => h.above_of_insert hq (hx hq hqy)
  by_cases hby : b = y
  · subst hby
    rw [Std.TreeMap.getElem?_insert_self] at hd
    cases hd
    exact ((h.meet x).mpr hx').insert_of_not (hrooted.not_above_of_rank_lt h.rank_lt)
  · rw [DomTable.getElem?_insert_ne hby] at hd
    have hxd := h.refining.covers hd hy hx'
    by_cases hbd : doms.Above b d
    · by_cases hxb : g.rank b ≤ g.rank x
      · exact hrooted.above_insert_of_rank_le hxd hxb
      -- `b` is also above an earlier predecessor of `y`, and `x` is above this one after the move
      have hmem := DomTable.mem_of_getElem? hd
      obtain ⟨q, hq, hqy, hlt⟩ := h.refining.exists_pred_mem (h.refining.ordered y hmem) hy (.inl hmem)
      have hdq : doms.Above d q :=
        h.refining.fresh hd hy hq hqy hlt (.inr (h.rank ▸ hrooted.rank_le hbd))
      have hxb : DomTable.Above (doms.insert b c) x b :=
        (hrooted.insert h.ne h.target h.rank_lt).above_of_rank_le (hx hq hqy)
          (hrooted.above_insert_of_rank_le (hbd.trans hdq) (Nat.le_refl _)) (by omega)
      exact hxb.trans (hrooted.above_insert_of_rank_le hbd (Nat.le_refl _))
    · exact hxd.insert_of_not hbd

theorem fresh_insert (hq : q ∈ doms.insert b c) (hqy : y ∈ g.allSuccs q) (hlt : g.rank q < g.rank y)
    (hi : g.rank y < i + 1 ∨ i + 1 ≤ g.rank d) : DomTable.Above (doms.insert b c) d q := by
  have hrooted := h.refining.rooted
  have hrank := h.rank
  by_cases hby : b = y
  · subst hby
    rw [Std.TreeMap.getElem?_insert_self] at hd
    cases hd
    have hq : q ∈ doms := (DomTable.mem_insert_iff.mp hq).resolve_left fun heq =>
      Nat.lt_irrefl _ (heq ▸ hlt)
    exact (h.above_pred hq hqy).insert_of_not (hrooted.not_above_of_rank_lt hlt)
  · rw [DomTable.getElem?_insert_ne hby] at hd
    have hmem := DomTable.mem_of_getElem? hd
    have hyi : g.rank y ≠ i := fun hyi =>
      hby (rank_inj h.mem (h.refining.ordered y hmem) (hrank.trans hyi.symm))
    have hq : q ∈ doms := by
      rcases DomTable.mem_insert_iff.mp hq with rfl | hq
      · exact h.refining.closed y hmem q h.mem hlt
      · exact hq
    have habove := h.refining.fresh hd hy hq hqy hlt (by omega)
    rcases hi with hi | hi
    · exact habove.insert_of_not (hrooted.not_above_of_rank_lt (by omega))
    · exact hrooted.above_insert_of_rank_le habove (by omega)

end

theorem insert : g.Refining (i + 1) (doms.insert b c) where
  rooted := h.refining.rooted.insert h.ne h.target h.rank_lt
  ordered y hy := (DomTable.mem_insert_iff.mp hy).elim (· ▸ h.mem) (h.refining.ordered y)
  reached y hy hlt := by
    refine DomTable.mem_insert_iff.mpr ?_
    by_cases hyi : g.rank y = i
    · exact .inl (rank_inj hy h.mem (hyi.trans h.rank.symm))
    · exact .inr (h.refining.reached y hy (by omega))
  closed y hy q hq hlt := by
    refine DomTable.mem_insert_iff.mpr (.inr ?_)
    rcases DomTable.mem_insert_iff.mp hy with rfl | hy
    · exact h.refining.reached q hq (h.rank ▸ hlt)
    · exact h.refining.closed y hy q hq hlt
  cuts := h.cuts_insert
  covers := h.covers_insert
  fresh := h.fresh_insert

end Turn

/-! ## Passes -/

/-- Ranks of the parents, summed up. A node without a parent counts as having one behind all nodes. -/
def height (g : FlowGraph) (doms : DomTable) : Nat :=
  (g.reversePostorder.map fun b => (doms[b]?.map g.rank).getD g.reversePostorder.length).sum

theorem Refining.height_le (h : g.Refining i doms) :
    g.height doms ≤ g.reversePostorder.length * g.reversePostorder.length := by
  have hle : ∀ n ∈ g.reversePostorder.map fun b => (doms[b]?.map g.rank).getD g.reversePostorder.length,
      n ≤ g.reversePostorder.length := by
    intro n hn
    obtain ⟨b, -, rfl⟩ := mem_map.mp hn
    cases hc : doms[b]? with
    | none => exact Nat.le_refl _
    | some c => exact Nat.le_of_lt (rank_lt_length (h.ordered c (h.rooted.mem_up hc)))
  unfold height
  simpa using sum_le_card_nsmul _ _ hle

theorem Turn.height_lt (h : g.Turn i doms b c) (hne : doms[b]? ≠ some c) :
    g.height (doms.insert b c) < g.height doms := by
  have hlt : g.rank c < (doms[b]?.map g.rank).getD g.reversePostorder.length := by
    cases hd : doms[b]? with
    | none => exact rank_lt_length (h.refining.ordered c h.target)
    | some d =>
        have hcd : c ≠ d := fun heq => hne (heq ▸ hd)
        exact h.refining.rooted.rank_lt (h.above_parent hd) hcd
  refine sum_lt_sum _ _ (fun y _ => ?_) ⟨b, h.mem, ?_⟩
  · by_cases hby : b = y
    · subst hby
      rw [Std.TreeMap.getElem?_insert_self]
      exact Nat.le_of_lt hlt
    · rw [DomTable.getElem?_insert_ne hby]
  · rw [Std.TreeMap.getElem?_insert_self]
    exact hlt

def domStep (g : FlowGraph) : DomPass → BlockId → Option DomPass :=
  DomPass.refine g.rank (2 * g.reversePostorder.length) ((g.predsIn g.reversePostorder).getD · [])

/-- What a pass makes of a table: it leaves the table alone if all nodes it comes to are where their
predecessors meet, else some node goes up. -/
def Refines (g : FlowGraph) (todo : List BlockId) (p p' : DomPass) : Prop :=
  (p' = p ∧ ∀ b ∈ todo, b ≠ g.entry → g.Met p.doms b) ∨
    (p'.changed = true ∧ g.height p'.doms < g.height p.doms)

theorem mem_knownPreds (h : g.Refining i doms) (hb : b ∈ g.reversePostorder) :
    q ∈ ((g.predsIn g.reversePostorder).getD b []).filter doms.contains ↔ q ∈ doms ∧ b ∈ g.allSuccs q := by
  rw [mem_filter, mem_predsIn g.nodup_reversePostorder hb]
  exact ⟨fun hq => ⟨hq.2, hq.1.2⟩, fun hq => ⟨⟨h.ordered q hq.1, hq.2⟩, hq.1⟩⟩

theorem Refining.exists_turn (h : g.Refining i doms) (hb : b ∈ g.reversePostorder) (hi : g.rank b = i)
    (hne : b ≠ g.entry) :
    ∃ first rest c, ((g.predsIn g.reversePostorder).getD b []).filter doms.contains = first :: rest ∧
      rest.foldlM (doms.meet g.rank (2 * g.reversePostorder.length)) first = some c ∧ g.Turn i doms b c := by
  obtain ⟨q, hq, hqb, -⟩ := h.exists_pred_mem hb hne (.inr hi)
  have hpreds {q : BlockId} := mem_knownPreds (q := q) h hb
  obtain ⟨first, rest, hknown⟩ := exists_cons_of_ne_nil (ne_nil_of_mem (hpreds.mpr ⟨hq, hqb⟩))
  rw [hknown] at hpreds
  have hsteps : ∀ x ∈ doms, 2 * g.rank x < 2 * g.reversePostorder.length := fun x hx => by
    have := rank_lt_length (h.ordered x hx)
    omega
  obtain ⟨c, hc, hfold, habove⟩ := h.rooted.foldlM_meet hsteps
    (fun q hq => (hpreds.mp (mem_cons_of_mem _ hq)).1) (hpreds.mp (mem_cons_self ..)).1
  refine ⟨first, rest, c, hknown, hfold, h, hb, hi, hne, hc, fun x => ?_⟩
  rw [habove]
  exact ⟨fun hx q hq hqb => hx q (hpreds.mpr ⟨hq, hqb⟩),
    fun hx q hq => hx q (hpreds.mp hq).1 (hpreds.mp hq).2⟩

theorem domStep_spec {p} (h : g.Refining i p.doms) (hb : b ∈ g.reversePostorder) (hi : g.rank b = i)
    (hne : b ≠ g.entry) : ∃ p', g.domStep p b = some p' ∧ g.Refining (i + 1) p'.doms ∧ g.Refines [b] p p' := by
  obtain ⟨first, rest, c, hknown, hfold, hturn⟩ := h.exists_turn hb hi hne
  refine ⟨if p.doms[b]? = some c then p else ⟨p.doms.insert b c, true⟩, ?_, ?_⟩
  · simp only [domStep, DomPass.refine, hknown, hfold]
    rfl
  · split
    · rename_i hget
      have hmet : g.Met p.doms b := ⟨c, hget, hturn.meet⟩
      exact ⟨h.advance hb hi (DomTable.mem_of_getElem? hget) fun _ => hmet, .inl ⟨rfl, by simpa using fun _ => hmet⟩⟩
    · rename_i hget
      exact ⟨hturn.insert, .inr ⟨rfl, hturn.height_lt hget⟩⟩

theorem domPass_spec {done todo} (horder : g.reversePostorder = done ++ todo) {p}
    (h : g.Refining done.length p.doms) : ∃ p', (todo.filter (· ≠ g.entry)).foldlM g.domStep p = some p' ∧
      g.Refining g.reversePostorder.length p'.doms ∧ g.Refines todo p p' := by
  induction todo generalizing done p with
  | nil => exact ⟨p, rfl, by simpa [horder] using h, .inl ⟨rfl, by simp⟩⟩
  | cons b todo ih =>
      have hb : b ∈ g.reversePostorder := by simp [horder]
      have hrank : g.rank b = done.length := rank_append horder
      have horder' : g.reversePostorder = (done ++ [b]) ++ todo := by simp [horder]
      have hlength : (done ++ [b]).length = done.length + 1 := by simp
      by_cases hentry : b = g.entry
      · have hnext := h.advance hb hrank (hentry ▸ DomTable.mem_of_getElem? h.rooted.root) (absurd hentry)
        obtain ⟨p', hfold, href, hp'⟩ := ih horder' (hlength ▸ hnext)
        refine ⟨p', by simpa [hentry] using hfold, href, hp'.imp_left fun ⟨heq, hmet⟩ => ⟨heq, ?_⟩⟩
        simpa [hentry] using hmet
      · obtain ⟨p1, hstep, hnext, hp1⟩ := domStep_spec h hb hrank hentry
        obtain ⟨p', hfold, href, hp'⟩ := ih horder' (hlength ▸ hnext)
        refine ⟨p', by simpa [hentry, hstep] using hfold, href, ?_⟩
        rcases hp1 with ⟨rfl, hmet⟩ | ⟨hchanged, hlt⟩
        · refine hp'.imp_left fun ⟨heq, hmet'⟩ => ⟨heq, ?_⟩
          simpa using ⟨by simpa using hmet, hmet'⟩
        · rcases hp' with ⟨rfl, -⟩ | ⟨hchanged', hlt'⟩
          · exact .inr ⟨hchanged, hlt⟩
          · exact .inr ⟨hchanged', Nat.lt_trans hlt' hlt⟩

theorem settle_spec {n} (h : g.Refining 0 doms) (hn : g.height doms < n) : ∃ doms', DomPass.settle
        (fun doms => (g.reversePostorder.filter (· ≠ g.entry)).foldlM g.domStep ⟨doms, false⟩) n doms = some doms' ∧
      g.Refining g.reversePostorder.length doms' ∧ ∀ b ∈ g.reversePostorder, b ≠ g.entry → g.Met doms' b := by
  induction n generalizing doms with
  | zero => omega
  | succ n ih =>
      obtain ⟨p', hfold, href, hp'⟩ := domPass_spec (nil_append _).symm (p := ⟨doms, false⟩) h
      rcases hp' with ⟨rfl, hmet⟩ | ⟨hchanged, hlt⟩
      · exact ⟨doms, by rw [DomPass.settle, hfold]; rfl, href, hmet⟩
      · obtain ⟨doms', hsettle, hres⟩ := ih href.restart (Nat.lt_of_lt_of_le hlt (Nat.le_of_lt_succ hn))
        refine ⟨doms', ?_, hres⟩
        rw [DomPass.settle, hfold, Option.bind_eq_bind, Option.bind_some, if_pos hchanged]
        exact hsettle

/-! ## Exactness -/

theorem Refining.above_iff_cuts (he : g.isNode g.entry = true) (h : g.Refining g.reversePostorder.length doms)
    (hmet : ∀ b ∈ g.reversePostorder, b ≠ g.entry → g.Met doms b) (hb : b ∈ g.reversePostorder) :
    doms.Above a b ↔ g.Cuts a b := by
  have hall (x : BlockId) (hx : x ∈ g.reversePostorder) : x ∈ doms := h.reached x hx (rank_lt_length hx)
  refine ⟨fun habove hev => ?_, h.above_of_cuts (hall b hb)⟩
  obtain ⟨hea, hr⟩ := hev
  clear hb
  induction hr with
  | refl => exact hea (h.rooted.eq_entry habove).symm
  | @tail x y hr hxy ih =>
      have hx : x ∈ g.reversePostorder := mem_reversePostorder he (ReflTransGen.mono (fun _ _ h => h.1) _ _ hr)
      have hy : y ∈ g.reversePostorder := mem_reversePostorder he ((reaches_of_mem_reversePostorder hx).tail hxy.1)
      by_cases hentry : y = g.entry
      · exact hea (h.rooted.eq_entry (hentry ▸ habove)).symm
      · obtain ⟨c, hc, hmeet⟩ := hmet y hy hentry
        rcases (DomTable.above_iff hc).mp habove with rfl | hac
        · exact hxy.2 rfl
        · exact ih ((hmeet a).mp hac x (hall x hx) hxy.1)

theorem dominators?_spec (he : g.isNode g.entry = true) :
    ∃ doms, g.dominators? g.reversePostorder = some doms ∧ (∀ b, b ∈ doms ↔ b ∈ g.reversePostorder) ∧
      ∀ a, ∀ b ∈ g.reversePostorder, ∃ r, doms.dominates a b = some r ∧ (r = true ↔ g.Cuts a b) := by
  have hstart := refining_start (mem_reversePostorder he .refl)
  obtain ⟨doms, hsettle, h, hmet⟩ := settle_spec hstart (Nat.lt_succ_of_le hstart.height_le)
  have hall (b : BlockId) (hb : b ∈ g.reversePostorder) : b ∈ doms := h.reached b hb (rank_lt_length hb)
  refine ⟨doms, hsettle, fun b => ⟨h.ordered b, hall b⟩, fun a b hb => ?_⟩
  have hsize : g.reversePostorder.length ≤ doms.size := by
    rw [← Std.TreeMap.length_keys]
    exact (subperm_of_subset g.nodup_reversePostorder fun b hb => Std.TreeMap.mem_keys.mpr (hall b hb)).length_le
  have hlt := rank_lt_length hb
  obtain ⟨r, hr, hiff⟩ := h.rooted.climb_spec (hall b hb) (n := doms.size + 1) (by omega)
  exact ⟨r, hr, hiff.trans (h.above_iff_cuts he hmet hb)⟩

theorem dominates_dominators (he : g.isNode g.entry = true) (hb : b ∈ g.reversePostorder) :
    g.dominators.dominates a b = some true ↔ g.Cuts a b := by
  obtain ⟨doms, hdoms, -, hspec⟩ := dominators?_spec he
  obtain ⟨r, hr, hiff⟩ := hspec a b hb
  rw [dominators, hdoms, Option.getD_some, hr, Option.some.injEq, hiff]

/-- The table is computed for every graph with an entry. It has the nodes that the entry reaches, and
it says of each of them which nodes all paths to it pass. -/
theorem dominators_exact (g : FlowGraph) (he : g.isNode g.entry = true) :
    ∃ doms, g.dominators? g.reversePostorder = some doms ∧
      (∀ b, b ∈ doms ↔ ∃ path, g.PathTo b path) ∧
      ∀ a b, (∃ path, g.PathTo b path) →
        ∃ r, doms.dominates a b = some r ∧ (r = true ↔ ∀ path, g.PathTo b path → a ∈ path) := by
  obtain ⟨doms, hdoms, hkeys, hspec⟩ := dominators?_spec he
  refine ⟨doms, hdoms, fun b => (hkeys b).trans (mem_reversePostorder_iff he), fun a b hb => ?_⟩
  obtain ⟨r, hr, hiff⟩ := hspec a b ((mem_reversePostorder_iff he).mpr hb)
  exact ⟨r, hr, hiff.trans cuts_iff⟩

/-- A loop with two ways in, an extra edge out of it, and edges back to the entry and to a node itself. -/
def twoWaysIn : FlowGraph :=
  .ofNodes 0 [(0, ⟨[1, 2], []⟩), (1, ⟨[2, 7], []⟩), (2, ⟨[1], [3]⟩), (3, ⟨[3, 0], []⟩)]

/-- Neither of the two ways into the loop dominates what follows it. -/
theorem dominators_twoWaysIn :
    (∀ path, twoWaysIn.PathTo 3 path → 2 ∈ path) ∧ ∃ path, twoWaysIn.PathTo 3 path ∧ 1 ∉ path := by
  obtain ⟨doms, hdoms, hkeys, hspec⟩ := dominators_exact twoWaysIn (by decide +kernel)
  have heval : (twoWaysIn.dominators? twoWaysIn.reversePostorder).map
      (fun doms => (doms.contains 3, doms.dominates 2 3, doms.dominates 1 3)) =
        some (true, some true, some false) := by
    decide +kernel
  rw [hdoms] at heval
  simp only [Option.map_some, Option.some.injEq, Prod.mk.injEq] at heval
  obtain ⟨hmem, h₂, h₁⟩ := heval
  have hreach := (hkeys 3).mp hmem
  obtain ⟨r, hr, hiff⟩ := hspec 2 3 hreach
  obtain ⟨r', hr', hiff'⟩ := hspec 1 3 hreach
  rw [h₂, Option.some.injEq] at hr
  rw [h₁, Option.some.injEq] at hr'
  subst hr hr'
  refine ⟨hiff.mp rfl, ?_⟩
  simpa using hiff'

end JvmLift.FlowGraph

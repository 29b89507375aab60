import JvmLift.Proofs.Flow.Reach

/-!
# Dominance and the order of a depth-first walk

A node dominates another one when every path from the entry to it passes the first one. In reverse postorder
dominators come before what they dominate.
-/
namespace JvmLift.FlowGraph

open List

open Relation (ReflTransGen TransGen)

/-! ## Paths from the entry -/

def Evades (g : FlowGraph) (a b : BlockId) : Prop :=
  g.entry ≠ a ∧ ReflTransGen (fun x y => y ∈ g.allSuccs x ∧ y ≠ a) g.entry b

/-- Every path from the entry to `b` passes `a`. -/
def Cuts (g : FlowGraph) (a b : BlockId) : Prop := ¬g.Evades a b

def PathTo (g : FlowGraph) (b : BlockId) (path : List BlockId) : Prop :=
  IsPath (fun x y => y ∈ g.allSuccs x) g.entry b path

section

variable {g : FlowGraph} {a b x y : BlockId}

theorem mem_ids : b ∈ g.ids ↔ g.isNode b = true := by
  unfold ids isNode
  rw [Std.TreeMap.mem_keys, Std.TreeMap.contains_iff_mem]

theorem isNode_of_mem_allSuccs (h : y ∈ g.allSuccs x) : g.isNode y = true := by
  unfold allSuccs at h
  split at h
  · exact (mem_filter.mp h).2
  · cases h

theorem mem_allSuccs_of_mem_succs (h : y ∈ g.succs x) (hy : g.isNode y = true) : y ∈ g.allSuccs x := by
  unfold succs at h
  unfold allSuccs
  split at h
  · exact mem_filter.mpr ⟨mem_append_left _ h, hy⟩
  · cases h

theorem cuts_iff : g.Cuts a b ↔ ∀ path, g.PathTo b path → a ∈ path := by
  unfold Cuts Evades PathTo
  rw [← exists_isPath_avoiding_iff]
  simp only [not_exists, not_and, not_not]

theorem exists_pathTo_iff : (∃ path, g.PathTo b path) ↔ ReflTransGen (fun x y => y ∈ g.allSuccs x) g.entry b :=
  exists_isPath_iff

theorem Evades.ne (h : g.Evades a b) : b ≠ a := by
  obtain ⟨he, hr⟩ := h
  induction hr with
  | refl => exact he
  | tail _ hxy _ => exact hxy.2

theorem Evades.step (h : g.Evades a x) (hxy : y ∈ g.allSuccs x) (hy : y ≠ a) : g.Evades a y :=
  ⟨h.1, h.2.tail ⟨hxy, hy⟩⟩

theorem Evades.along (h : g.Evades a x) (hr : ReflTransGen (fun x y => y ∈ g.allSuccs x ∧ y ≠ a) x y) : g.Evades a y :=
  ⟨h.1, h.2.trans hr⟩

theorem Cuts.refl (g : FlowGraph) (a : BlockId) : g.Cuts a a := fun h => h.ne rfl

theorem Cuts.pred (h : g.Cuts a y) (hxy : y ∈ g.allSuccs x) (hy : y ≠ a) : g.Cuts a x :=
  fun he => h (he.step hxy hy)

theorem Cuts.antisymm (hb : ReflTransGen (fun x y => y ∈ g.allSuccs x) g.entry b)
    (hab : g.Cuts a b) (hba : g.Cuts b a) : a = b := by
  by_contra hne
  have hea : g.entry ≠ a := fun h => hba ⟨h ▸ hne, h ▸ .refl⟩
  have heb : g.entry ≠ b := fun h => hab ⟨h ▸ Ne.symm hne, h ▸ .refl⟩
  -- along a path to `b`, neither of the two is ever touched
  suffices g.Evades a b from hab this
  have : ∀ x, ReflTransGen (fun x y => y ∈ g.allSuccs x) g.entry x → g.Evades a x ∧ g.Evades b x := by
    intro x hx
    induction hx with
    | refl => exact ⟨⟨hea, .refl⟩, ⟨heb, .refl⟩⟩
    | tail _ hxy ih =>
        rename_i x y _
        have hya : y ≠ a := fun h => hba (h ▸ ih.2.step hxy (h ▸ hne))
        have hyb : y ≠ b := fun h => hab (h ▸ ih.1.step hxy (h ▸ Ne.symm hne))
        exact ⟨ih.1.step hxy hya, ih.2.step hxy hyb⟩
  exact (this b hb).1

theorem Cuts.linear (hx : ReflTransGen (fun x y => y ∈ g.allSuccs x) g.entry x) (ha : g.Cuts a x)
    (hb : g.Cuts b x) : g.Cuts a b ∨ g.Cuts b a := by
  by_contra hnot
  rw [not_or] at hnot
  have hab : g.Evades a b := not_not.mp hnot.1
  have hba : g.Evades b a := not_not.mp hnot.2
  -- a path that comes to one of the two is replaced by one that evades the other
  suffices ∀ y, ReflTransGen (fun x y => y ∈ g.allSuccs x) g.entry y → g.Evades a y ∨ g.Evades b y from
    (this x hx).elim ha hb
  intro y hy
  induction hy with
  | refl => exact .inl ⟨hab.1, .refl⟩
  | @tail y z _ hyz ih =>
      by_cases hza : z = a
      · exact .inr (hza ▸ hba)
      by_cases hzb : z = b
      · exact .inl (hzb ▸ hab)
      · exact ih.imp (·.step hyz hza) (·.step hyz hzb)

end

/-! ## Reverse postorder -/

/-- Every member is one of the roots or comes after one of its predecessors. -/
def Linked (g : FlowGraph) (roots order : List BlockId) : Prop :=
  ∀ as x bs, order = as ++ x :: bs → x ∈ roots ∨ ∃ p ∈ as, x ∈ g.allSuccs p

variable {x : BlockId}

section

variable {g : FlowGraph}

theorem Linked.nil (roots : List BlockId) : g.Linked roots [] := by
  intro as x bs h
  simp at h

theorem Linked.append {roots1 roots2 new1 new2} (h2 : g.Linked roots2 new2)
    (h1 : g.Linked roots1 new1) : g.Linked (roots1 ++ roots2) (new2 ++ new1) := by
  intro as x bs h
  rcases append_eq_append_iff.mp h with ⟨cs, rfl, rfl⟩ | ⟨cs, rfl, hcs⟩
  · rcases h1 cs x bs rfl with hx | ⟨p, hp, hx⟩
    · exact .inl (mem_append_left _ hx)
    · exact .inr ⟨p, mem_append_right _ hp, hx⟩
  · cases cs with
    | nil =>
        rcases h1 [] x bs hcs.symm with hx | ⟨p, hp, hx⟩
        · exact .inl (mem_append_left _ hx)
        · cases hp
    | cons c cs =>
        obtain ⟨rfl, rfl⟩ := cons_eq_cons.mp hcs
        rcases h2 as x cs rfl with hx | hp
        · exact .inl (mem_append_right _ hx)
        · exact .inr hp

variable {b : BlockId}

theorem Linked.cons {new} (h : g.Linked (g.allSuccs b) new) : g.Linked [b] (b :: new) := by
  intro as x bs he
  cases as with
  | nil =>
      obtain ⟨rfl, -⟩ := cons_eq_cons.mp he
      exact .inl (mem_singleton_self _)
  | cons a as =>
      obtain ⟨rfl, rfl⟩ := cons_eq_cons.mp he
      rcases h as x bs rfl with hx | ⟨p, hp, hx⟩
      · exact .inr ⟨b, mem_cons_self .., hx⟩
      · exact .inr ⟨p, mem_cons_of_mem _ hp, hx⟩

theorem Linked.reaches {order} (h : g.Linked [b] order) (hx : x ∈ order) :
    ReflTransGen (fun x y => y ∈ g.allSuccs x) b x := by
  obtain ⟨as, bs, he⟩ := append_of_mem hx
  clear hx
  induction hn : as.length using Nat.strongRecOn generalizing as x bs with
  | ind n ih =>
      rcases h as x bs he with hx | ⟨p, hp, hx⟩
      · exact mem_singleton.mp hx ▸ .refl
      · obtain ⟨as1, as2, rfl⟩ := append_of_mem hp
        have hp : order = as1 ++ p :: (as2 ++ x :: bs) := by simp [he]
        exact (ih as1.length (by simp [← hn]) as1 _ hp rfl).tail hx

/-- A walk along some nodes makes `w'` of `w`: it passes what was seen, and finishes any other node after
all that it leads to. -/
inductive Visits (g : FlowGraph) : List BlockId → Walk → Walk → Prop
  | nil (w : Walk) : Visits g [] w w
  | seen {b bs w w'} (hb : b ∈ w.visited) (rest : Visits g bs w w') : Visits g (b :: bs) w w'
  | node {b bs w w1 w'} (hb : b ∉ w.visited)
      (inner : Visits g (g.allSuccs b) ⟨w.visited.insert b, w.order⟩ w1)
      (rest : Visits g bs ⟨w1.visited, b :: w1.order⟩ w') : Visits g (b :: bs) w w'

theorem Visits.subset {bs w w'} (h : g.Visits bs w w') : ∀ x ∈ w.visited, x ∈ w'.visited := by
  induction h with
  | nil w => exact fun _ hx => hx
  | seen _ _ ih => exact ih
  | node _ _ _ ihinner ihrest => exact fun x hx => ihrest x (ihinner x (by simp [hx]))

theorem visits_foldl (n : Nat) (bs : List BlockId) (w : Walk) (hbs : ∀ b ∈ bs, g.isNode b = true)
    (hn : g.ids.countP (fun x => !w.visited.contains x) ≤ n) : g.Visits bs w (bs.foldl (g.visit n) w) := by
  induction n generalizing bs w with
  | zero =>
      have hall := countP_eq_zero.mp (Nat.le_zero.mp hn)
      induction bs with
      | nil => exact .nil w
      | cons b bs ih =>
          have hb := hall b (mem_ids.mpr (hbs b mem_cons_self))
          exact .seen (by simpa using hb) (ih fun c hc => hbs c (mem_cons_of_mem b hc))
  | succ n ih =>
      induction bs generalizing w with
      | nil => exact .nil w
      | cons b bs ihbs =>
          have hrest : ∀ c ∈ bs, g.isNode c = true := fun c hc => hbs c (mem_cons_of_mem b hc)
          rw [foldl_cons, visit]
          split
          · rename_i hv
            exact .seen hv (ihbs w hrest hn)
          · rename_i hv
            have hsub : ∀ x ∈ w.visited, x ∈ w.visited.insert b := fun x hx => by simp [hx]
            have hlt := countP_unseen_lt hsub (mem_ids.mpr (hbs b mem_cons_self)) hv (by simp)
            have hinner := ih (g.allSuccs b) ⟨w.visited.insert b, w.order⟩ (fun _ => isNode_of_mem_allSuccs)
              (Nat.le_of_succ_le_succ (Nat.le_trans hlt hn))
            refine .node hv hinner (ihbs _ hrest (Nat.le_trans (countP_unseen_le _ ?_) hn))
            exact fun x hx => hinner.subset x (hsub x hx)

/-- What a walk along `bs` adds to the order: each node once, and behind it all that it leads to, unless that
leads back to it. -/
structure Walk.Adds (g : FlowGraph) (bs : List BlockId) (w w' : Walk) (new : List BlockId) : Prop where
  order : w'.order = new ++ w.order
  visited : ∀ x, x ∈ w'.visited ↔ x ∈ w.visited ∨ x ∈ new
  unseen : ∀ x ∈ new, x ∉ w.visited
  nodup : new.Nodup
  roots : ∀ b ∈ bs, b ∈ w'.visited
  closed : ∀ x ∈ new, ∀ y ∈ g.allSuccs x, y ∈ w'.visited
  linked : g.Linked bs new
  ordered : new.Pairwise fun x y => x ∈ g.allSuccs y → ReflTransGen (fun x y => y ∈ g.allSuccs x) x y

namespace Walk.Adds

variable {bs new : List BlockId} {w w1 w2 : Walk}

theorem nil (h : ∀ b ∈ bs, b ∈ w.visited) : w.Adds g bs w [] :=
  ⟨rfl, by simp, nofun, nodup_nil, h, nofun, .nil _, .nil⟩

theorem append {as new1 new2} (h : w.Adds g as w1 new1) (h' : w1.Adds g bs w2 new2) :
    w.Adds g (as ++ bs) w2 (new2 ++ new1) where
  order := by rw [h'.order, h.order, append_assoc]
  visited x := by
    rw [h'.visited, h.visited, mem_append, or_assoc, or_comm (a := x ∈ new1)]
  unseen x hx := (mem_append.mp hx).elim
    (fun hx hw => h'.unseen x hx ((h.visited x).mpr (.inl hw))) (h.unseen x)
  nodup := by
    refine nodup_append.mpr ⟨h'.nodup, h.nodup, ?_⟩
    rintro x hx _ hx' rfl
    exact h'.unseen x hx ((h.visited x).mpr (.inr hx'))
  roots b hb := (mem_append.mp hb).elim
    (fun hb => (h'.visited b).mpr (.inl (h.roots b hb))) (h'.roots b)
  closed x hx y hy := (mem_append.mp hx).elim (fun hx => h'.closed x hx y hy)
    fun hx => (h'.visited y).mpr (.inl (h.closed x hx y hy))
  linked := h'.linked.append h.linked
  -- what was finished earlier leads only to what had been seen by then
  ordered := pairwise_append.mpr ⟨h'.ordered, h.ordered, fun x hx y hy hyx =>
    absurd (h.closed y hy x hyx) (h'.unseen x hx)⟩

theorem node (hb : b ∉ w.visited) (h : Adds g (g.allSuccs b) ⟨w.visited.insert b, w.order⟩ w1 new) :
    w.Adds g [b] ⟨w1.visited, b :: w1.order⟩ (b :: new) where
  order := by simp [h.order]
  visited x := by
    rw [h.visited, Std.TreeSet.mem_insert, Std.LawfulEqCmp.compare_eq_iff_eq, mem_cons, or_comm (a := b = x),
      or_assoc, eq_comm]
  unseen x hx := by
    rcases mem_cons.mp hx with rfl | hx
    · exact hb
    · exact fun hw => h.unseen x hx (by simp [hw])
  nodup := nodup_cons.mpr ⟨fun hx => h.unseen b hx (by simp), h.nodup⟩
  roots x hx := by
    rw [mem_singleton.mp hx, h.visited]
    simp
  closed x hx y hy := by
    rcases mem_cons.mp hx with rfl | hx
    · exact h.roots y hy
    · exact h.closed x hx y hy
  linked := h.linked.cons
  ordered := pairwise_cons.mpr ⟨fun y hy _ => h.linked.cons.reaches (mem_cons_of_mem b hy), h.ordered⟩

end Walk.Adds

theorem Visits.adds {bs w w'} (h : g.Visits bs w w') : ∃ new, w.Adds g bs w' new := by
  induction h with
  | nil w => exact ⟨[], .nil nofun⟩
  | @seen b bs w w' hb _ ih =>
      obtain ⟨new, hnew⟩ := ih
      have hnone : w.Adds g [b] w [] := .nil (by simpa using hb)
      exact ⟨_, hnone.append hnew⟩
  | node hb _ _ ihinner ihrest =>
      obtain ⟨new1, h1⟩ := ihinner
      obtain ⟨new2, h2⟩ := ihrest
      exact ⟨_, (h1.node hb).append h2⟩

theorem adds_reversePostorder (he : g.isNode g.entry = true) :
    ∃ w, Walk.Adds g [g.entry] ⟨∅, []⟩ w g.reversePostorder := by
  have hsize : g.ids.countP (fun x => !(∅ : BlockSet).contains x) ≤ g.nodes.size := by
    rw [← Std.TreeMap.length_keys]
    exact countP_le_length
  obtain ⟨new, h⟩ := (visits_foldl g.nodes.size [g.entry] ⟨∅, []⟩ (by simpa using he) hsize).adds
  have horder : g.reversePostorder = new := by
    rw [reversePostorder, if_pos he]
    exact h.order.trans (append_nil new)
  exact ⟨_, horder ▸ h⟩

theorem reversePostorder_of_not_isNode (he : ¬g.isNode g.entry = true) : g.reversePostorder = [] := if_neg he

theorem linked_reversePostorder (g : FlowGraph) : g.Linked [g.entry] g.reversePostorder := by
  by_cases he : g.isNode g.entry = true
  · obtain ⟨_, h⟩ := adds_reversePostorder he
    exact h.linked
  · rw [reversePostorder_of_not_isNode he]
    exact .nil _

theorem nodup_reversePostorder (g : FlowGraph) : g.reversePostorder.Nodup := by
  by_cases he : g.isNode g.entry = true
  · obtain ⟨_, h⟩ := adds_reversePostorder he
    exact h.nodup
  · exact reversePostorder_of_not_isNode he ▸ nodup_nil

end

/-! ## The order of the nodes -/

section

variable {g : FlowGraph}

theorem mem_reversePostorder (he : g.isNode g.entry = true)
    (hx : ReflTransGen (fun x y => y ∈ g.allSuccs x) g.entry x) : x ∈ g.reversePostorder := by
  obtain ⟨w, h⟩ := adds_reversePostorder he
  have hvisited : ∀ y ∈ w.visited, y ∈ g.reversePostorder := fun y hy =>
    ((h.visited y).mp hy).resolve_left (by simp)
  induction hx with
  | refl => exact hvisited _ (h.roots _ (mem_singleton_self _))
  | tail _ hxy ih => exact hvisited _ (h.closed _ ih _ hxy)

theorem reaches_of_mem_reversePostorder (hx : x ∈ g.reversePostorder) :
    ReflTransGen (fun x y => y ∈ g.allSuccs x) g.entry x := (linked_reversePostorder g).reaches hx

theorem mem_reversePostorder_iff (he : g.isNode g.entry = true) : x ∈ g.reversePostorder ↔ ∃ path, g.PathTo x path :=
  ⟨fun hx => exists_pathTo_iff.mpr (reaches_of_mem_reversePostorder hx),
    fun hx => mem_reversePostorder he (exists_pathTo_iff.mp hx)⟩

theorem before_of_cuts {as bs d} (h : g.reversePostorder = as ++ x :: bs) (hd : g.Cuts d x) : d = x ∨ d ∈ as := by
  have hlinked := linked_reversePostorder g
  induction hn : as.length using Nat.strongRecOn generalizing as x bs with
  | ind n ih =>
      by_cases hdx : d = x
      · exact .inl hdx
      refine .inr ?_
      rcases hlinked as x bs h with hx | ⟨p, hp, hx⟩
      · rw [mem_singleton.mp hx] at hd hdx
        exact absurd ⟨Ne.symm hdx, .refl⟩ hd
      · obtain ⟨as1, as2, rfl⟩ := append_of_mem hp
        have hp : g.reversePostorder = as1 ++ p :: (as2 ++ x :: bs) := by simp [h]
        rcases ih as1.length (by simp [← hn]) hp (hd.pred hx (Ne.symm hdx)) rfl with rfl | hd
        · simp
        · exact mem_append_left _ hd

theorem head?_reversePostorder (he : g.isNode g.entry = true) : g.reversePostorder.head? = some g.entry := by
  cases h : g.reversePostorder with
  | nil =>
      have hentry := mem_reversePostorder he .refl
      rw [h] at hentry
      cases hentry
  | cons x xs =>
      rcases linked_reversePostorder g [] x xs h with hx | ⟨p, hp, -⟩
      · rw [mem_singleton.mp hx, head?_cons]
      · cases hp

def Edge (g : FlowGraph) (x y : BlockId) : Prop :=
  g.isNode y = true ∧ ∃ n, g.nodes[x]? = some n ∧ (y ∈ n.succs ∨ y ∈ n.extra)

theorem mem_allSuccs_eq_edge : (fun x y => y ∈ g.allSuccs x) = g.Edge := by
  funext x y
  unfold allSuccs Edge
  split <;> simp [*, and_comm, or_and_right]

/-- The order lists what the entry reaches, each node once and the entry first. A node stands before those it
leads to, but for edges that close a cycle: without cycles the order is topological. -/
theorem reversePostorder_depthFirst (g : FlowGraph) (he : g.isNode g.entry = true) :
    (∀ x, x ∈ g.reversePostorder ↔ ReflTransGen g.Edge g.entry x) ∧ g.reversePostorder.Nodup ∧
      g.reversePostorder.head? = some g.entry ∧
      (∀ u ∈ g.reversePostorder, ∀ v ∈ g.reversePostorder, g.Edge u v →
        ReflTransGen g.Edge v u ∨ [u, v].Sublist g.reversePostorder) ∧
      ((∀ x, ¬TransGen g.Edge x x) → g.reversePostorder.Pairwise fun x y => ¬g.Edge y x) := by
  obtain ⟨w, hw⟩ := adds_reversePostorder he
  have hordered : g.reversePostorder.Pairwise fun x y => g.Edge y x → ReflTransGen g.Edge x y := by
    rw [← mem_allSuccs_eq_edge]
    exact hw.ordered
  refine ⟨fun x => ?_, hw.nodup, head?_reversePostorder he, fun u hu v hv huv => ?_, fun hacyclic => ?_⟩
  · rw [← mem_allSuccs_eq_edge]
    exact ⟨reaches_of_mem_reversePostorder, mem_reversePostorder he⟩
  · obtain ⟨as, bs, h⟩ := List.append_of_mem hu
    rw [h] at hv hordered ⊢
    rcases List.mem_append.mp hv with hv | hv
    · exact Or.inl ((List.pairwise_append.mp hordered).2.2 v hv u List.mem_cons_self huv)
    · rcases List.mem_cons.mp hv with rfl | hv
      · exact Or.inl .refl
      · exact Or.inr (((List.singleton_sublist.mpr hv).cons_cons u).trans (List.sublist_append_right as _))
  · refine hordered.imp fun {x y} hback hyx => ?_
    exact hacyclic x (.tail' (hback hyx) hyx)

/-- Two nodes that lead to each other, an edge to nowhere, and one node that can be reached over an extra edge
only. -/
def meetsAgain : FlowGraph :=
  .ofNodes 0 [(0, ⟨[1, 2, 9, 1], []⟩), (1, ⟨[3], [2]⟩), (2, ⟨[1, 3], []⟩), (3, ⟨[], [4]⟩), (4, ⟨[], []⟩), (5, ⟨[0], []⟩)]

theorem reversePostorder_meetsAgain : meetsAgain.reversePostorder = [0, 1, 2, 3, 4] ∧
    ReflTransGen meetsAgain.Edge 0 4 ∧ ¬ReflTransGen meetsAgain.Edge 0 5 ∧ ReflTransGen meetsAgain.Edge 1 2 := by
  have horder : meetsAgain.reversePostorder = [0, 1, 2, 3, 4] := by decide +kernel
  obtain ⟨hreach, -, -, hedge, -⟩ := reversePostorder_depthFirst meetsAgain (by decide +kernel)
  have hback : meetsAgain.Edge 2 1 := ⟨by decide +kernel, ⟨[1, 3], []⟩, by decide +kernel, by decide⟩
  rw [horder] at hreach hedge
  exact ⟨horder, (hreach 4).mp (by decide), mt (hreach 5).mpr (by decide),
    (hedge 2 (by decide) 1 (by decide) hback).resolve_right (by decide)⟩

end

end JvmLift.FlowGraph

import Mathlib.Data.List.Forall2
import JvmLift.Proofs.Data
import JvmLift.Protection.Analysis

/-!
# Handlers are accounted for

Rows are grouped by handler, handlers by the extent they protect, and each extent becomes a plan. On the way no
handler is lost and none is taken twice, and clauses keep the order of the table.
-/
namespace JvmLift

open List

/-- The handlers a plan stands for: those of its clauses, then the one of its finalizer. -/
def TryPlan.handlers (p : TryPlan) : List BlockId :=
  p.catchEntries ++ p.cleanup.toList.map (·.handler)

namespace Protection

structure Accounts (plans : List TryPlan) (rows : List HandlerEdge) : Prop where
  /-- Each handler has one place among all the clauses and finalizers, and nothing else has one. -/
  once : ∀ b, (plans.flatMap (·.handlers)).count b = if b ∈ rows.map (·.handler) then 1 else 0
  types : ∀ p ∈ plans, ∀ c ∈ p.catches,
    c.types = ((rows.filter (·.handler == c.handler)).filterMap (·.catchType)).eraseDups
  order : ∀ p ∈ plans, p.catchEntries.Sublist (rows.map (·.handler)).eraseDups
  bounds : ∀ p ∈ plans, p.start < p.stop
  nesting : plans.Pairwise fun p q => p.size < q.size ∨ p.size = q.size ∧ q.start < p.start
  approximate : ∀ p ∈ plans, p.approximate = true ↔ p.shape = .unrecognized

/-! ## Rows by handler -/

namespace HandlerGroup

def ofRows (rows : List HandlerEdge) (b : BlockId) : HandlerGroup :=
  ⟨b, ((rows.filter (·.handler == b)).map (·.catchType)).eraseDups,
    (rows.filter (·.handler == b)).map fun e => (e.start, e.stop)⟩

variable {rows : List HandlerEdge} {e : HandlerEdge} {b : BlockId}

theorem ofRows_concat_of_ne (h : b ≠ e.handler) : ofRows (rows ++ [e]) b = ofRows rows b := by
  simp [ofRows, h.symm]

theorem addRow_ofRows : (ofRows rows e.handler).addRow e = ofRows (rows ++ [e]) e.handler := by
  simp only [ofRows, addRow, filter_append, map_append, filter_cons, filter_nil,
    beq_self_eq_true, if_true, map_cons, map_nil, eraseDups_concat, contains_iff_mem,
    mem_eraseDups]

theorem ofRows_concat_of_new (h : e.handler ∉ rows.map (·.handler)) :
    ofRows (rows ++ [e]) e.handler = ⟨e.handler, [e.catchType], [(e.start, e.stop)]⟩ := by
  have hnone : rows.filter (·.handler == e.handler) = [] := by
    apply filter_eq_nil_iff.mpr
    intro row hrow heq
    exact h (mem_map.mpr ⟨row, hrow, by simpa using heq⟩)
  simp [ofRows, hnone, eraseDups_cons]

theorem addTo_map_ofRows {keys} (hkeys : keys.Nodup)
    (h : e.handler ∉ keys → e.handler ∉ rows.map (·.handler)) : addTo e (keys.map (ofRows rows)) =
      (if e.handler ∈ keys then keys else keys ++ [e.handler]).map (ofRows (rows ++ [e])) := by
  induction keys with
  | nil => simp [addTo, ofRows_concat_of_new (h not_mem_nil)]
  | cons k keys ih =>
      obtain ⟨hk, hkeys⟩ := nodup_cons.mp hkeys
      rw [map_cons, addTo]
      split
      · rename_i heq
        obtain rfl : k = e.handler := heq
        have hrest : keys.map (ofRows rows) = keys.map (ofRows (rows ++ [e])) := by
          apply map_congr_left
          intro b hb
          exact (ofRows_concat_of_ne (fun hb' => hk (hb' ▸ hb))).symm
        rw [if_pos mem_cons_self, addRow_ofRows, hrest, map_cons]
      · rename_i hne
        have hne : k ≠ e.handler := hne
        rw [ih hkeys (fun hmem => h (by simp [hne.symm, hmem])), ← ofRows_concat_of_ne hne]
        simp only [mem_cons, hne.symm, false_or]
        split <;> rfl

theorem ofEdges_eq (edges : List HandlerEdge) :
    ofEdges edges = ((edges.filter fun e => e.start < e.stop).map (·.handler)).eraseDups.map
      (ofRows (edges.filter fun e => e.start < e.stop)) := by
  unfold ofEdges
  generalize edges.filter (fun e => decide (e.start < e.stop)) = rows
  induction rows using reverseRecOn with
  | nil => rfl
  | append_singleton rows e ih =>
      rw [foldl_append, ih, foldl_cons, foldl_nil,
        addTo_map_ofRows (nodup_eraseDups _) (by simp), map_append, map_singleton, eraseDups_concat]
      simp only [mem_eraseDups]

theorem namedTypes_ofRows :
    (ofRows rows b).namedTypes = ((rows.filter (·.handler == b)).filterMap (·.catchType)).eraseDups := by
  simp only [namedTypes, ofRows, filterMap_eraseDups, filterMap_map]
  rfl

theorem extent_lt {g : HandlerGroup} (handlers : List BlockId) (hne : g.ranges ≠ [])
    (h : ∀ r ∈ g.ranges, r.1 < r.2) : (g.extent handlers).1 < (g.extent handlers).2 := by
  have hspan : ∀ ranges : List Range, ranges ≠ [] → (∀ r ∈ ranges, r.1 < r.2) →
      (ranges.map (·.1)).min?.getD 0 < (ranges.map (·.2)).max?.getD 0 := by
    intro ranges hne h
    obtain ⟨r, hr⟩ := exists_mem_of_ne_nil ranges hne
    calc (ranges.map (·.1)).min?.getD 0
        ≤ r.1 := min?_getD_le_of_mem (mem_map_of_mem hr)
      _ < r.2 := h r hr
      _ ≤ (ranges.map (·.2)).max?.getD 0 := le_max?_getD_of_mem (mem_map_of_mem hr)
  simp only [extent]
  split
  · exact hspan _ hne h
  · rename_i hprimary
    exact hspan _ (by simpa using hprimary) (fun r hr => h r (mem_filter.mp hr).1)

theorem extent_lt_of_mem_ofEdges {edges} {g : HandlerGroup} (hg : g ∈ ofEdges edges)
    (handlers : List BlockId) : (g.extent handlers).1 < (g.extent handlers).2 := by
  rw [ofEdges_eq] at hg
  obtain ⟨b, hb, rfl⟩ := mem_map.mp hg
  obtain ⟨e, he, rfl⟩ := mem_map.mp (mem_eraseDups.mp hb)
  apply extent_lt
  · simp only [ofRows, ne_eq, map_eq_nil_iff, filter_eq_nil_iff]
    exact fun h => h e he (beq_self_eq_true _)
  · intro r hr
    obtain ⟨row, hrow, rfl⟩ := mem_map.mp hr
    simpa using (mem_filter.mp (mem_filter.mp hrow).1).2

end HandlerGroup

/-! ## Handlers by extent -/

theorem regions_perm (groups : List HandlerGroup) : ((regions groups).flatMap (·.2)).Perm groups := by
  simp only [regions, flatMap_map]
  apply flatMap_filter_perm
  · exact (mergeSort_perm _ _).nodup_iff.mpr (nodup_eraseDups _)
  · intro g hg
    simp only [mem_mergeSort, mem_eraseDups]
    exact mem_map_of_mem hg

variable {groups : List HandlerGroup}

theorem mem_regions {region} (h : region ∈ regions groups) :
    region.2.Sublist groups ∧ ∃ g ∈ groups, region.1 = g.extent (groups.map (·.handler)) := by
  obtain ⟨extent, he, rfl⟩ := mem_map.mp h
  rw [mem_mergeSort, mem_eraseDups] at he
  obtain ⟨g, hg, rfl⟩ := mem_map.mp he
  exact ⟨filter_sublist, g, hg, rfl⟩

def inner (a b : Range) : Bool :=
  a.2 - a.1 < b.2 - b.1 || (a.2 - a.1 == b.2 - b.1 && b.1 ≤ a.1)

theorem map_extent_regions (groups : List HandlerGroup) : (regions groups).map (·.1) =
      (groups.map (·.extent (groups.map (·.handler)))).eraseDups.mergeSort inner := by
  rw [regions, List.map_map]
  exact List.map_id _

theorem pairwise_inner_mergeSort (extents : List Range) : (extents.mergeSort inner).Pairwise (inner · ·) := by
  apply pairwise_mergeSort
  · simp only [inner, Bool.or_eq_true, Bool.and_eq_true, decide_eq_true_eq, beq_iff_eq]
    omega
  · simp only [inner, Bool.or_eq_true, Bool.and_eq_true, decide_eq_true_eq, beq_iff_eq]
    omega

theorem pairwise_regions
    (h : ∀ g ∈ groups, (g.extent (groups.map (·.handler))).1 < (g.extent (groups.map (·.handler))).2) :
    ((regions groups).map (·.1)).Pairwise fun a b => a.2 - a.1 < b.2 - b.1 ∨ a.2 - a.1 = b.2 - b.1 ∧ b.1 < a.1 := by
  have hlt : ∀ r ∈ (regions groups).map (·.1), r.1 < r.2 := by
    intro r hr
    obtain ⟨region, hregion, rfl⟩ := mem_map.mp hr
    obtain ⟨-, g, hg, heq⟩ := mem_regions hregion
    exact heq ▸ h g hg
  rw [map_extent_regions] at hlt ⊢
  have hnodup := (mergeSort_perm _ inner).nodup_iff.mpr
    (nodup_eraseDups (groups.map (·.extent (groups.map (·.handler)))))
  apply ((pairwise_inner_mergeSort _).and hnodup).imp_of_mem
  intro a b ha hb hab
  obtain ⟨hle, hne⟩ := hab
  have ha := hlt a ha
  simp only [inner, Bool.or_eq_true, Bool.and_eq_true, decide_eq_true_eq, beq_iff_eq] at hle
  rcases hle with hsize | ⟨hsize, hstart⟩
  · exact .inl hsize
  · refine .inr ⟨hsize, Nat.lt_of_le_of_ne hstart fun heq => hne (Prod.ext heq.symm ?_)⟩
    omega

/-! ## Plans -/

structure Describes (plan : TryPlan) (region : Range × List HandlerGroup) : Prop where
  bounds : (plan.start, plan.stop) = region.1
  handlers : plan.handlers.Perm (region.2.map (·.handler))
  catches : plan.catches.Sublist (region.2.map (·.toCatch))
  approximate : plan.approximate = true ↔ plan.shape = .unrecognized

section

variable {code : List Instruction} {handlers : List BlockId} {claimed : List Range} {extent : Range}
  {group : List HandlerGroup}

theorem map_handler_toCatch (group : List HandlerGroup) :
    (group.map (·.toCatch)).map (·.handler) = group.map (·.handler) := by
  rw [List.map_map]
  rfl

theorem handlers_perm (group : List HandlerGroup) : (((group.filter (!·.isCatchAll)).map (·.toCatch)).map (·.handler) ++
      (group.filter (·.isCatchAll)).map (·.handler)).Perm (group.map (·.handler)) := by
  rw [map_handler_toCatch, ← map_append]
  exact (perm_append_comm.trans (filter_append_perm _ group)).map _

theorem describes_unrecognized : Describes (unrecognized extent group).plan (extent, group) where
  bounds := rfl
  handlers := by
    simp only [TryPlan.handlers, TryPlan.catchEntries, unrecognized, map_handler_toCatch]
    exact .of_eq (append_nil _)
  catches := List.Sublist.refl _
  approximate := by simp [unrecognized]

theorem describes_classify : Describes (classify code handlers claimed extent group).plan (extent, group) := by
  have hplaces := handlers_perm group
  have hcatches := (filter_sublist (l := group) (p := (!·.isCatchAll))).map (·.toCatch)
  unfold classify
  dsimp only
  split
  · rename_i hall
    rw [hall] at hplaces
    refine ⟨rfl, hplaces, hcatches, ?_⟩
    split <;> simp
  · rename_i any hall
    rw [hall] at hplaces
    split
    · split
      · refine ⟨rfl, hplaces, hcatches, ?_⟩
        simp only [classifyJsr, Bool.false_eq_true, false_iff]
        split_ifs <;> exact not_false
      · exact describes_unrecognized
    · split
      · refine ⟨rfl, hplaces, hcatches, ?_⟩
        simp only [classifyInlined, Bool.false_eq_true, false_iff]
        split_ifs <;> exact not_false
      · exact describes_unrecognized
  · exact describes_unrecognized

theorem describes_classifyAll (regions : List (Range × List HandlerGroup)) :
    List.Forall₂ Describes (classifyAll code handlers claimed regions).1 regions := by
  induction regions generalizing claimed with
  | nil => exact .nil
  | cons region rest ih => exact .cons describes_classify ih

end

variable {plans : List TryPlan} {regions' : List (Range × List HandlerGroup)}

section

variable (h : List.Forall₂ Describes plans regions')

include h

theorem handlers_flatMap_perm : (plans.flatMap (·.handlers)).Perm ((regions'.flatMap (·.2)).map (·.handler)) := by
  induction h with
  | nil => exact .nil
  | cons hd _ ih =>
      rw [flatMap_cons, flatMap_cons, map_append]
      exact hd.handlers.append ih

theorem bounds_map_eq : plans.map (fun p => (p.start, p.stop)) = regions'.map (·.1) := by
  induction h with
  | nil => rfl
  | cons hd _ ih => rw [map_cons, map_cons, hd.bounds, ih]

theorem exists_describes {plan} (hplan : plan ∈ plans) : ∃ region ∈ regions', Describes plan region := by
  induction h with
  | nil => cases hplan
  | cons hd _ ih =>
      rcases mem_cons.mp hplan with rfl | hplan
      · exact ⟨_, mem_cons_self, hd⟩
      · obtain ⟨region, hregion, hd⟩ := ih hplan
        exact ⟨region, mem_cons_of_mem _ hregion, hd⟩

end

theorem start_lt_stop {code edges p} (hp : p ∈ (analyze code edges).plans) : p.start < p.stop := by
  obtain ⟨region, hregion, hd⟩ := exists_describes (describes_classifyAll _) hp
  obtain ⟨-, g, hg, heq⟩ := mem_regions hregion
  have hlt := HandlerGroup.extent_lt_of_mem_ofEdges hg ((HandlerGroup.ofEdges edges).map (·.handler))
  rwa [← heq, ← hd.bounds] at hlt

/-- The plans of a method take up the rows of its table that protect something. -/
theorem analyze_accounts (code : List Instruction) (edges : List HandlerEdge) :
    Accounts (analyze code edges).plans (edges.filter fun e => e.start < e.stop) := by
  have hdescribes : List.Forall₂ Describes (analyze code edges).plans
      (regions (HandlerGroup.ofEdges edges)) := describes_classifyAll _
  have hextent : ∀ g ∈ HandlerGroup.ofEdges edges, ∀ handlers, _ :=
    fun g hg => HandlerGroup.extent_lt_of_mem_ofEdges hg
  have hgroups := HandlerGroup.ofEdges_eq edges
  have hbounds : ∀ p ∈ (analyze code edges).plans, p.start < p.stop := fun _ => start_lt_stop
  generalize (analyze code edges).plans = plans at hdescribes hbounds ⊢
  generalize (edges.filter fun e => decide (e.start < e.stop)) = rows at hgroups ⊢
  generalize HandlerGroup.ofEdges edges = groups at hdescribes hextent hgroups
  have hhandlers : groups.map (·.handler) = (rows.map (·.handler)).eraseDups := by
    rw [hgroups, List.map_map]
    exact List.map_id _
  constructor
  case once =>
    intro b
    have hperm : (plans.flatMap (·.handlers)).Perm (rows.map (·.handler)).eraseDups :=
      hhandlers ▸ (handlers_flatMap_perm hdescribes).trans ((regions_perm groups).map _)
    rw [hperm.count_eq, (nodup_eraseDups _).count]
    simp only [List.mem_eraseDups]
  case types =>
    intro p hp c hc
    obtain ⟨region, hregion, hd⟩ := exists_describes hdescribes hp
    obtain ⟨g, hg, rfl⟩ := List.mem_map.mp (hd.catches.subset hc)
    have hg := (mem_regions hregion).1.subset hg
    rw [hgroups] at hg
    obtain ⟨b, -, rfl⟩ := List.mem_map.mp hg
    exact HandlerGroup.namedTypes_ofRows
  case order =>
    intro p hp
    obtain ⟨region, hregion, hd⟩ := exists_describes hdescribes hp
    rw [← hhandlers]
    have hentries : p.catchEntries.Sublist ((region.2.map (·.toCatch)).map (·.handler)) := hd.catches.map _
    rw [map_handler_toCatch] at hentries
    exact hentries.trans ((mem_regions hregion).1.map _)
  case bounds => exact hbounds
  case nesting =>
    have hsorted := pairwise_regions fun g hg => hextent g hg _
    rw [← bounds_map_eq hdescribes, List.pairwise_map] at hsorted
    refine hsorted.imp_of_mem fun {p q} hp hq h => ?_
    rwa [TryPlan.size_eq (Nat.le_of_lt (hbounds p hp)), TryPlan.size_eq (Nat.le_of_lt (hbounds q hq))]
  case approximate =>
    intro p hp
    obtain ⟨region, -, hd⟩ := exists_describes hdescribes hp
    exact hd.approximate

end Protection

end JvmLift

import JvmLift.Proofs.Walk.Coverage

/-!
# Blocks are visited in the order of dominance

Where all blocks are reachable and no regions are protected, a block is visited after everything that cuts it off from
the entry, and only once. Only the latch of a loop tested at its end is visited without asking, and it is still open
then.
-/
namespace JvmLift.Walk

open List

open Relation (ReflTransGen)

/-- A layout without protected regions in which the entry and all exits are blocks. -/
structure Bare (l : Layout) : Prop where
  fits : l.Fits
  begins : l.isBlock l.graph.entry = true
  closed : ∀ b block, l.block? b = some block → ∀ t ∈ block.exit.targets, l.isBlock t = true
  no_plans : l.protection.plans = []
  no_skips : l.protection.skipped = []

/-- Every block can be reached, too. -/
structure Connected (l : Layout) : Prop extends Bare l where
  reached : l.AllReached

/-- What cuts a visited block off was visited. -/
def Downward (l : Layout) (s : State) : Prop :=
  ∀ v ∈ s.visited, ∀ d, l.graph.Cuts d v → d ∈ s.visited

/-- What cuts a block off, itself apart, was visited. -/
def Ready (l : Layout) (s : State) (b : BlockId) : Prop :=
  ∀ d, l.graph.Cuts d b → d ≠ b → d ∈ s.visited

/-- A loop around a place of an enclosing construct was begun or will not be. -/
def Nests (l : Layout) (scopes : List Enclosing) (s : State) : Prop :=
  ∀ t ∈ targetsOf scopes, ∀ info ∈ l.loops, t ∈ info.body → t ≠ info.header →
    info.header ∈ s.visited ∨ info.header ∈ s.loops ∨ info.header ∈ targetsOf scopes

variable {test : Expr}

section

variable {l : Layout} {scopes : List Enclosing} {s s' : State} {b v w : BlockId}

theorem Bare.skipPast? (hb : Bare l) (b : BlockId) : skipPast? l b = none := by
  simp [Walk.skipPast?, Protection.skipEnd?, hb.no_skips]

theorem Bare.not_stuck (hb : Bare l) (b : BlockId) : ¬l.Stuck b := by
  rintro ⟨plan, hplan, -⟩
  simp [hb.no_plans] at hplan

variable {block : Block}

theorem Bare.mem_succs (hb : Bare l) (h : l.block? b = some block) : w ∈ l.succs b ↔ w ∈ block.exit.targets := by
  rw [hb.fits.succs b block h]
  exact ⟨fun h => (mem_filter.mp h).1, fun hw => mem_filter.mpr ⟨hw, hb.closed b block h w hw⟩⟩

variable {info : Loop}

theorem Connected.isLoop (hb : Connected l) (h : info ∈ l.loops) : info ∈ l.graph.naturalLoops := hb.fits.loops ▸ h

theorem Connected.entry (hb : Connected l) : l.graph.isNode l.graph.entry = true :=
  hb.fits.entry_isNode hb.reached

theorem Connected.header_reaches (hb : Connected l) {info} (h : info ∈ l.loops) {x}
    (hx : x ∈ info.body) : ReflTransGen (fun x y => y ∈ l.succs x ∧ y ∈ info.body) info.header x := by
  have hn := ((FlowGraph.mem_body_iff hb.entry (hb.isLoop h)).mp hx).1
  rw [hb.fits.node] at hn
  exact FlowGraph.header_reaches hb.entry (hb.isLoop h) (hb.reached.2 x hn) hx

variable {x : BlockId}

theorem Connected.cuts_body (hb : Connected l) (h : info ∈ l.loops) (hx : x ∈ info.body) : l.graph.Cuts info.header x :=
  FlowGraph.cuts_of_mem_body hb.entry (hb.isLoop h) hx

variable {d : BlockId}

theorem Connected.mem_body_or_cuts (hb : Connected l) (h : info ∈ l.loops) (hx : x ∈ info.body)
    (hd : l.graph.Cuts d x) : d ∈ info.body ∨ l.graph.Cuts d info.header := by
  by_cases hin : d ∈ info.body
  · exact .inl hin
  · refine .inr fun hev => hd (hev.along ?_)
    refine ReflTransGen.mono (fun a c hac => ?_) _ _ (hb.header_reaches h hx)
    exact ⟨hb.fits.mem_allSuccs hac.1, fun hc => hin (hc ▸ hac.2)⟩

theorem Connected.cuts_of_exit (hb : Connected l) {info'} (h : info ∈ l.loops) (h' : info' ∈ l.loops)
    {y} (hx : x ∈ info.body) (hy : y ∈ l.succs x) (hout : y ∉ info.body) (hy' : y ∈ info'.body)
    (hne : y ≠ info'.header) : l.graph.Cuts info'.header info.header := by
  refine FlowGraph.cuts_header_of_exit hb.entry (fun x hx => ?_) (fun x y hy => ?_) (hb.isLoop h)
    (hb.isLoop h') hx hy hout hy' hne
  · exact hb.reached.2 x (hb.fits.node x ▸ hx)
  · exact hb.fits.node y ▸ (hb.fits.isBlock_of_mem_succs hy).2

theorem Ready.mono (h : Ready l s b) (hg : Grows s s') : Ready l s' b :=
  fun d hd hne => hg.visited (h d hd hne)

theorem Nests.mono (h : Nests l scopes s) (hg : Grows s s') : Nests l scopes s' :=
  fun t ht info hi hb hne => (h t ht info hi hb hne).imp (hg.visited ·) (Or.imp_left (hg.loops ·))

theorem Ready.downward_visit (h : Ready l s b) (hd : Downward l s) : Downward l (s.visit b) := by
  intro v hv d hcut
  rcases mem_cons.mp hv with rfl | hv
  · by_cases hdv : d = v
    · exact hdv ▸ mem_cons_self ..
    · exact mem_cons_of_mem _ (h d hcut hdv)
  · exact mem_cons_of_mem _ (hd v hv d hcut)

theorem Downward.ready_succ (hb : Connected l) (h : Downward l s) (hv : v ∈ s.visited)
    (hw : w ∈ l.succs v) : Ready l s w :=
  fun d hd hne => h v hv d (hd.pred (hb.fits.mem_allSuccs hw) (Ne.symm hne))

variable {e : Enclosing}

theorem Nests.cons (h : Nests l scopes s)
    (he : ∀ t, e.continueTarget = some t ∨ e.follow = some t → ∀ info ∈ l.loops, t ∈ info.body → t ≠ info.header →
      info.header ∈ s.visited ∨ info.header ∈ s.loops ∨ e.follow = some info.header) : Nests l (e :: scopes) s := by
  intro t ht info hi hb hne
  rcases mem_targetsOf_cons.mp ht with ht | ht | ht
  · exact (he t (.inl ht) info hi hb hne).imp_right (Or.imp_right fun h =>
      mem_targetsOf_cons.mpr (.inr (.inl h)))
  · exact (he t (.inr ht) info hi hb hne).imp_right (Or.imp_right fun h =>
      mem_targetsOf_cons.mpr (.inr (.inl h)))
  · exact (h t ht info hi hb hne).imp_right (Or.imp_right fun h =>
      mem_targetsOf_cons.mpr (.inr (.inr h)))

/-- Between two states blocks are visited in order and once; of the places of the enclosing
constructs only `own` is visited. -/
structure Orderly (l : Layout) (scopes : List Enclosing) (own : BlockId → Prop) (s s' : State) :
    Prop where
  downward : Downward l s'
  nodup : s.visited.Nodup → s'.visited.Nodup
  places : ∀ t ∈ targetsOf scopes, t ∈ s'.visited → t ∈ s.visited ∨ own t

variable {own : BlockId → Prop}

theorem Orderly.refl (hd : Downward l s) (hv : s'.visited = s.visited) : Orderly l scopes own s s' :=
  ⟨by unfold Downward; rw [hv]; exact hd, by rw [hv]; exact id, fun t _ ht => .inl (hv ▸ ht)⟩

theorem Orderly.trans {own1 own2 s1} (h1 : Orderly l scopes own1 s s1)
    (h2 : Orderly l scopes own2 s1 s') (ho1 : ∀ t ∈ targetsOf scopes, own1 t → own t)
    (ho2 : ∀ t ∈ targetsOf scopes, own2 t → own t) : Orderly l scopes own s s' where
  downward := h2.downward
  nodup h := h2.nodup (h1.nodup h)
  places t ht hv := by
    rcases h2.places t ht hv with hv | hv
    · exact (h1.places t ht hv).imp_right (ho1 t ht)
    · exact .inr (ho2 t ht hv)

theorem Orderly.outer (h : Orderly l (e :: scopes) own s s') : Orderly l scopes own s s' :=
  { h with places := fun t ht => h.places t (mem_targetsOf_cons.mpr (.inr (.inr ht))) }

theorem Orderly.of_visited_eq {s1} (h : Orderly l scopes own s1 s')
    (hv : s1.visited = s.visited) : Orderly l scopes own s s' :=
  { h with nodup := hv ▸ h.nodup, places := hv ▸ h.places }

/-- What is known where a construct begins. -/
structure Arrived (l : Layout) (scopes : List Enclosing) (s : State) (b : BlockId) : Prop where
  downward : Downward l s
  nests : Nests l scopes s
  ready : Ready l s b
  fresh : b ∉ s.visited
  begun : b ∈ targetsOf scopes → b ∈ s.loops

theorem Arrived.visit (h : Arrived l scopes s b) : Orderly l scopes (· = b) s (s.visit b) where
  downward := h.ready.downward_visit h.downward
  nodup hn := nodup_cons.mpr ⟨h.fresh, hn⟩
  places _ _ hv := (mem_cons.mp hv).symm

theorem Arrived.cuts (h : Arrived l scopes s b) (hd : l.graph.Cuts d b) : d ∈ s.visited ∨ d = b := by
  by_cases hdb : d = b
  · exact .inr hdb
  · exact .inl (h.ready d hd hdb)

theorem Arrived.not_begun (h : Arrived l scopes s b) (hl : LoopAt l s b info) :
    ¬(b ∈ s.visited ∨ b ∈ s.loops ∨ b ∈ targetsOf scopes) := by
  have hloops := (pendingLoop_some hl.pending).2.2
  rintro (hv | hv | hv)
  · exact h.fresh hv
  · exact hloops hv
  · exact hloops (h.begun hv)

variable {stop : Option BlockId}

theorem body_visited (hcon : Connected l) (h : Arrived l scopes s b) (hl : LoopAt l s b info) {W}
    (hc : Covers l s s' W (Deferred (e :: scopes) stop s')) (hb : b ∈ s'.visited)
    (hcont : ∀ t, e.continueTarget = some t → t = b ∨ some t = stop) (hfollow : ∀ t, e.follow = some t → t ∉ info.body)
    (hstop : ∀ v, some v = stop → ∀ w ∈ l.succs v, w ∈ info.body → w = b) (hx : x ∈ info.body) :
    x ∈ s'.visited ∨ some x = stop := by
  obtain ⟨hinfo, rfl, -⟩ := pendingLoop_some hl.pending
  have hnew := h.not_begun hl
  have hr := hcon.header_reaches hinfo hx
  clear hx
  induction hr with
  | refl => exact .inl hb
  | tail hr hvw ih =>
      rename_i v w
      obtain ⟨hsucc, hw⟩ := hvw
      rcases ih with hv | hv
      · have hvbody : v ∈ info.body := by
          rcases ReflTransGen.cases_tail hr with rfl | ⟨_, -, -, hv⟩
          · exact FlowGraph.header_mem_body (hcon.isLoop hinfo)
          · exact hv
        -- the header cuts the block off, so it was not visited before
        have hvnew : v ∉ s.visited := fun hold =>
          h.fresh (h.downward v hold _ (hcon.cuts_body hinfo hvbody))
        have hW := (hc.all hcon.no_plans v hv).resolve_left hvnew
        rcases hc.succs v hW (hcon.not_stuck v) w hsucc (hcon.skipPast? w) with hw' | hw'
        · exact .inl (hc.visited w hw' (hcon.not_stuck w))
        · rcases hw' with hw' | hw' | hw'
          · exact .inr hw'
          · rcases mem_targetsOf_cons.mp hw' with hw' | hw' | hw'
            · rcases hcont w hw' with heq | hw'
              · exact .inl (heq ▸ hb)
              · exact .inr hw'
            · exact absurd hw (hfollow w hw')
            · by_cases hwh : w = info.header
              · exact .inl (hwh ▸ hb)
              · exact absurd (h.nests w hw' info hinfo hw hwh) hnew
          · exact .inl hw'.2
      · exact .inl (hstop v hv w hsucc hw ▸ hb)

variable {entering : Bool}

theorem Arrives.arrived (h : Arrives scopes b stop entering s) (hd : Downward l s) (hn : Nests l scopes s)
    (hready : some b ≠ stop → Ready l s b) (hbegun : entering = true → b ∈ s.loops) : Arrived l scopes s b where
  downward := hd
  nests := hn
  ready := hready h.ne_stop
  fresh := h.fresh
  begun ht := by
    cases entering with
    | true => exact hbegun rfl
    | false => exact absurd ht (findJump_eq_none.mp (h.no_jump rfl))

theorem Orderly.arrived (h : Orderly l scopes (· = b) s s') (ha : Arrives scopes b stop entering s) :
    Orderly l scopes (fun t => entering = true ∧ t = b) s s' :=
  { h with
    places := fun t ht hv => (h.places t ht hv).imp_right fun htb => by
      subst htb
      cases entering with
      | true => exact ⟨rfl, rfl⟩
      | false => exact absurd ht (findJump_eq_none.mp (ha.no_jump rfl)) }

/-! ## Places of new constructs -/

theorem Arrived.nests_header (hcon : Connected l) (h : Arrived l scopes s b) (hl : LoopAt l s b info)
    {follow} (hexit : ∀ f, follow = some f → ∃ x ∈ info.body, f ∈ l.succs x ∧ f ∉ info.body)
    (label : Nat) : Nests l (⟨some b, follow, label⟩ :: scopes) (s.openLoop b).takeLabel := by
  obtain ⟨hinfo, hheader, -⟩ := pendingLoop_some hl.pending
  refine (h.nests.mono ((Grows.openLoop s b).trans (.takeLabel _))).cons ?_
  intro t ht info' hinfo' htb hne
  have hcut : l.graph.Cuts info'.header b := by
    rcases ht with ht | ht
    · cases ht
      exact hcon.cuts_body hinfo' htb
    · obtain ⟨x, hx, hs, hout⟩ := hexit t ht
      exact hheader ▸ hcon.cuts_of_exit hinfo hinfo' hx hs hout htb hne
  rcases h.cuts hcut with hv | hv
  · exact .inl hv
  · exact .inr (.inl (hv ▸ mem_cons_self ..))

variable {follow : BlockId}

theorem Arrived.nests_latch (hcon : Connected l) (h : Arrived l scopes s b) (hl : LoopAt l s b info)
    {latch} (hform : l.loopForm info = .tested latch test follow) (label : Nat) :
    Nests l (⟨some latch, some follow, label⟩ :: scopes) (s.openLoop b).takeLabel := by
  obtain ⟨hinfo, hheader, -⟩ := pendingLoop_some hl.pending
  obtain ⟨block, hlatches, hd, hout⟩ := Layout.loopForm_tested hform
  obtain ⟨e, t, f, side, he, harm, hrest, -⟩ := hd.exit
  have hlatch : latch ∈ info.body :=
    FlowGraph.latch_mem_body hcon.entry (hcon.isLoop hinfo) (by simp [hlatches])
  have hsuccs : ∀ w ∈ l.succs latch, w = b ∨ w = follow := by
    intro w hw
    rw [← hheader, harm, hrest]
    exact side.arm_or_rest (he ▸ hcon.fits.mem_targets hd.block? hw)
  have hcut_follow : ∀ info' ∈ l.loops, follow ∈ info'.body → follow ≠ info'.header →
      l.graph.Cuts info'.header b := by
    intro info' hinfo' hf hne
    refine hheader ▸ hcon.cuts_of_exit hinfo hinfo' hlatch ?_ hout hf hne
    rw [hcon.mem_succs hd.block?, he, hrest]
    exact side.rest_mem_targets e t f
  have hbegun : ∀ info' ∈ l.loops, l.graph.Cuts info'.header b →
      info'.header ∈ s.visited ∨ info'.header ∈ b :: s.loops := by
    intro info' _ hcut
    rcases h.cuts hcut with hv | hb
    · exact .inl hv
    · exact .inr (hb ▸ mem_cons_self ..)
  refine (h.nests.mono ((Grows.openLoop s b).trans (.takeLabel _))).cons ?_
  rintro t (ht | ht) info' hinfo' htb hne
  · cases ht
    -- the way from the latch to the header of the other loop starts at one of its two successors
    obtain ⟨latch', hl', hne', hr⟩ :=
      FlowGraph.path_of_mem_body hcon.entry (hcon.isLoop hinfo') htb hne
    rcases ReflTransGen.cases_tail hr with heq | ⟨x, hrx, hx, -⟩
    · rcases hsuccs _ (heq ▸ (FlowGraph.latch_cuts hcon.entry (hcon.isLoop hinfo') hl').2) with hb | hb
      · exact .inr (.inl (hb ▸ mem_cons_self ..))
      · exact .inr (.inr (congrArg some hb.symm))
    · have hxb : x ∈ info'.body ∧ x ≠ info'.header := by
        rcases ReflTransGen.cases_tail hrx with rfl | ⟨_, -, -, hx⟩
        · exact ⟨FlowGraph.latch_mem_body hcon.entry (hcon.isLoop hinfo') hl', hne'⟩
        · exact hx
      have hcut : l.graph.Cuts info'.header b := by
        rcases hsuccs x hx with rfl | rfl
        · exact hcon.cuts_body hinfo' hxb.1
        · exact hcut_follow info' hinfo' hxb.1 hxb.2
      exact (hbegun info' hinfo' hcut).imp_right .inl
  · cases ht
    exact (hbegun info' hinfo' (hcut_follow info' hinfo' htb hne)).imp_right .inl

variable {cases : List (Int32 × BlockId)}

theorem Connected.cuts_of_follow (hcon : Connected l) {key default f} (hb : l.block? b = some block)
    (he : block.exit = .switch key default cases) (hf : followOf l scopes stop default cases = some f)
    (hd : l.graph.Cuts d f) (hne : d ≠ f) : l.graph.Cuts d b := by
  have hsub : ∀ t ∈ sortedSet (cases.map (·.2) ++ [default]), t ∈ l.succs b := fun t ht => by
    rw [hcon.mem_succs hb, he]
    exact ht
  rcases Option.or_eq_some_iff.mp hf with hm | ⟨-, hm⟩
  · refine hcon.fits.merge_cuts hcon.reached ?_ hsub hm hd hne
    exact ne_nil_of_mem (mem_sortedSet.mpr (mem_append_right _ (mem_singleton_self _)))
  · split at hm
    · cases hm
    · cases hm
      refine hd.pred (hcon.fits.mem_allSuccs (hsub _ ?_)) (Ne.symm hne)
      exact mem_sortedSet.mpr (mem_append_right _ (mem_singleton_self _))

theorem Arrived.nests_switch (hcon : Connected l) (h : Arrived l scopes s b) {key default follow}
    (hb : l.block? b = some block)
    (he : block.exit = .switch key default cases) (hf : followOf l scopes stop default cases = follow)
    (label : Nat) : Nests l (⟨none, follow, label⟩ :: scopes) (s.visit b).takeLabel := by
  refine (h.nests.mono ((Grows.visit s b).trans (.takeLabel _))).cons ?_
  rintro t (ht | ht) info hinfo htb hne
  · cases ht
  · refine .inl (h.visit.downward b (mem_cons_self ..) _ ?_)
    exact hcon.cuts_of_follow hb he (hf.trans ht) (hcon.cuts_body hinfo htb) (Ne.symm hne)

end

/-! ## Derivations visit blocks in order -/

section

variable {l : Layout} {strict : Bool}

section

variable {scopes : List Enclosing} {s s1 s' : State} {b : BlockId} {info : Loop}

theorem Part.absent_visited {absent stop body}
    (h : Part l strict absent scopes b stop entering s body s') (ha : absent = true) : s'.visited = s.visited := by
  cases h with
  | absent => rfl
  | present _ => cases ha

theorem Connected.guarded_exit (hcon : Connected l) (hinfo : info ∈ l.loops) {inside}
    (hform : l.loopForm info = .guarded test inside follow) : inside ∈ l.succs info.header ∧
    follow ∈ l.succs info.header ∧ ∀ f, some follow = some f → ∃ x ∈ info.body, f ∈ l.succs x ∧ f ∉ info.body := by
  obtain ⟨block, hd, -, -, hout⟩ := Layout.loopForm_guarded hform
  obtain ⟨e, t, f, side, he, rfl, rfl, -⟩ := hd.exit
  have hrest : side.rest t f ∈ l.succs info.header := by
    rw [hcon.mem_succs hd.block?, he]
    exact side.rest_mem_targets e t f
  refine ⟨?_, hrest, fun g hg => ⟨info.header, ?_, ?_, ?_⟩⟩
  · rw [hcon.mem_succs hd.block?, he]
    exact side.arm_mem_targets e t f
  · exact FlowGraph.header_mem_body (hcon.isLoop hinfo)
  · exact Option.some.inj hg ▸ hrest
  · exact Option.some.inj hg ▸ hout

theorem Arrived.visit_latch (hcon : Connected l) (ha : Arrived l scopes s b) (hl : LoopAt l s b info)
    {latch} (hform : l.loopForm info = .tested latch test follow) {label W}
    (hg : Grows s s1) (hc : Covers l s s1 W (Deferred (⟨some latch, some follow, label⟩ :: scopes) (some latch) s1))
    (hb : latch ≠ b → b ∈ s1.visited) (ho : Orderly l (⟨some latch, some follow, label⟩ :: scopes) (· = b) s s1)
    (hsame : latch = b → s1.visited = s.visited) : Orderly l scopes (· = b) s (s1.visit latch) := by
  obtain ⟨hinfo, hheader, -⟩ := pendingLoop_some hl.pending
  obtain ⟨block, hlatches, hd, hout⟩ := Layout.loopForm_tested hform
  obtain ⟨e, t, f, side, he, harm, hrest, -⟩ := hd.exit
  have hlatch : latch ∈ info.body :=
    FlowGraph.latch_mem_body hcon.entry (hcon.isLoop hinfo) (by simp [hlatches])
  by_cases hlb : latch = b
  · subst hlb
    have hready : Ready l s1 latch := ha.ready.mono hg
    exact ⟨hready.downward_visit ho.downward,
      fun hn => nodup_cons.mpr ⟨hsame rfl ▸ ha.fresh, ho.nodup hn⟩, fun t ht hv =>
      (mem_cons.mp hv).elim .inr (ho.outer.places t ht)⟩
  have hb := hb hlb
  have hopen : latch ∉ s1.visited := by
    intro hv
    rcases ho.places latch (mem_targetsOf_cons.mpr (.inl rfl)) hv with hv | hv
    · exact ha.fresh (ha.downward latch hv b (hheader ▸ hcon.cuts_body hinfo hlatch))
    · exact hlb hv
  have hbody : ∀ x ∈ info.body, x ∈ s1.visited ∨ some x = some latch := fun x hx =>
    body_visited hcon ha hl hc hb (fun t ht => .inr ht.symm)
      (fun t ht => by cases ht; exact hout)
      (fun v hv w hw hwb => by
        cases hv
        rcases side.arm_or_rest (he ▸ hcon.fits.mem_targets hd.block? hw) with hw | hw
        · rw [hw, ← harm, hheader]
        · exact absurd (hrest ▸ hw ▸ hwb) hout) hx
  have hready : Ready l s1 latch := by
    intro d hcut hne
    rcases hcon.mem_body_or_cuts hinfo hlatch hcut with hd | hd
    · exact (hbody d hd).resolve_right fun h => hne (Option.some.inj h)
    · rcases ha.cuts (hheader ▸ hd) with hv | rfl
      · exact hg.visited hv
      · exact hb
  refine ⟨hready.downward_visit ho.downward, fun hn => nodup_cons.mpr ⟨hopen, ho.nodup hn⟩, ?_⟩
  intro t ht hv
  rcases mem_cons.mp hv with rfl | hv
  · refine absurd (ha.nests t ht info hinfo hlatch (hheader ▸ hlb)) ?_
    rw [hheader]
    exact ha.not_begun hl
  · exact ho.outer.places t ht hv

end

/-! ## Constructs -/

/-- The blocks of a construct are visited in order, and what comes after it is ready. -/
structure Proceeds (l : Layout) (scopes : List Enclosing) (stop : Option BlockId) (b : BlockId) (s : State)
    (next : Option BlockId) (s' : State) : Prop where
  orderly : Orderly l scopes (· = b) s s'
  ready : ∀ n, next = some n → some n ≠ stop → Ready l s' n

section

variable {scopes : List Enclosing} {stop : Option BlockId} {s s1 s' : State} {b v w : BlockId} {block : Block}
  {info : Loop}

theorem Downward.ready_target (hcon : Connected l) (h : Downward l s) (hv : v ∈ s.visited)
    (hb : l.block? v = some block) (hw : w ∈ block.exit.targets) : Ready l s w :=
  h.ready_succ hcon hv ((hcon.mem_succs hb).mpr hw)

theorem Covers.entered (hcon : Connected l) {W later} (hc : Covers l s s' W later) (hb : l.isBlock b = true)
    (hW : Starts l scopes b stop true s' W) (hstop : some b ≠ stop) : b ∈ s'.visited := by
  rcases hW hb (hcon.skipPast? b) with h | h | h | h
  · exact hc.visited b h (hcon.not_stuck b)
  · exact absurd h hstop
  · cases h.1
  · exact h.2

variable (hcon : Connected l) (ha : Arrived l scopes s b)

include ha in
theorem Arrived.visit_then {own} (ho : Orderly l scopes own (s.visit b) s') (hown : ∀ t, ¬own t) :
    Orderly l scopes (· = b) s s' :=
  ha.visit.trans ho (fun _ _ h => h) fun t _ ht => (hown t ht).elim

include hcon ha

theorem Arrived.ready_target (hb : l.block? b = some block) (hw : w ∈ block.exit.targets) : Ready l (s.visit b) w :=
  ha.visit.downward.ready_target hcon (mem_cons_self ..) hb hw

theorem Arrived.goes (hb : l.block? b = some block) (ht : block.exit.onlyTarget? = some w) :
    Proceeds l scopes stop b s (some w) (s.visit b) := by
  refine ⟨ha.visit, fun n hn _ => ha.ready_target hcon hb ?_⟩
  cases hn
  simp [Exit.targets_of_onlyTarget? ht]

variable {e : Expr} {taken fall : BlockId}

theorem Arrived.oneSided (hb : l.block? b = some block) (he : block.exit = .cond e taken fall) {side : Side}
    (ho : Orderly l scopes (fun t => false = true ∧ t = side.arm taken fall) (s.visit b) s')
    (hg : Grows (s.visit b) s') : Proceeds l scopes stop b s (some (side.rest taken fall)) s' := by
  refine ⟨ha.visit_then ho (fun _ h => by cases h.1), fun n hn _ => ?_⟩
  cases hn
  exact ho.downward.ready_target hcon (hg.visited (mem_cons_self ..)) hb (he ▸ side.rest_mem_targets e taken fall)

theorem Arrived.twoSided {armStop meets} (hb : l.block? b = some block) (he : block.exit = .cond e taken fall)
    (hform : branchForm l scopes taken fall stop = .twoSided armStop meets)
    (ho1 : Orderly l scopes (fun t => false = true ∧ t = fall) (s.visit b) s1)
    (ho2 : Orderly l scopes (fun t => false = true ∧ t = taken) s1 s') (hg : Grows (s.visit b) s') (joins : Bool) :
    Proceeds l scopes stop b s (if joins then armStop else none) s' := by
  refine ⟨(ha.visit_then ho1 fun _ h => by cases h.1).trans ho2 (fun _ _ h => h) (fun _ _ h => by cases h.1),
    fun n hn hstop d hd hne => ?_⟩
  split at hn
  · rcases branchForm_twoSided hform with ⟨-, hm⟩ | rfl
    · refine ho2.downward b (hg.visited (mem_cons_self ..)) d ?_
      refine hcon.fits.merge_cuts hcon.reached (by simp) (fun t ht => ?_) (hm.trans hn) hd hne
      rw [hcon.mem_succs hb, he]
      simp only [Exit.targets]
      split <;> simp_all
    · exact absurd hn.symm hstop
  · cases hn

theorem Arrived.switch {key default cases follow label} (hb : l.block? b = some block)
    (he : block.exit = .switch key default cases) (hf : followOf l scopes stop default cases = follow)
    (ho : Orderly l (⟨none, follow, label⟩ :: scopes) (fun _ => False) (s.visit b).takeLabel s')
    (hg : Grows (s.visit b).takeLabel s') : Proceeds l scopes stop b s follow s' := by
  refine ⟨ha.visit_then (ho.outer.of_visited_eq rfl) fun _ h => h, fun n hn _ d hd hne => ?_⟩
  exact ho.downward b (hg.visited (mem_cons_self ..)) d (hcon.cuts_of_follow hb he (hf.trans hn) hd hne)

theorem Arrived.guarded {inside label follow} (hfollow : follow ∈ l.succs b)
    (ho : Orderly l (⟨some b, some follow, label⟩ :: scopes) (fun t => false = true ∧ t = inside)
      ((s.visit b).openLoop b).takeLabel s')
    (hg : Grows ((s.visit b).openLoop b).takeLabel s') : Proceeds l scopes stop b s (some follow) s' := by
  refine ⟨ha.visit_then (ho.outer.of_visited_eq rfl) (fun _ h => by cases h.1), fun n hn _ => ?_⟩
  cases hn
  exact ho.downward.ready_succ hcon (hg.visited (mem_cons_self ..)) hfollow

theorem Arrived.tested (hl : LoopAt l s b info) {latch} (hform : l.loopForm info = .tested latch test follow)
    {label W} (hg : Grows s s1)
    (hc : Covers l s s1 W (Deferred (⟨some latch, some follow, label⟩ :: scopes) (some latch) s1))
    (hb : latch ≠ b → b ∈ s1.visited)
    (ho : Orderly l (⟨some latch, some follow, label⟩ :: scopes) (fun t => true = true ∧ t = b)
      (s.openLoop b).takeLabel s1)
    (hsame : latch = b → s1.visited = s.visited) : Proceeds l scopes stop b s (some follow) (s1.visit latch) := by
  obtain ⟨block, -, hdec, -⟩ := Layout.loopForm_tested hform
  obtain ⟨e, t, f, side, he, -, hrest, -⟩ := hdec.exit
  have hlatch := ha.visit_latch hcon hl hform hg hc hb
    ⟨ho.downward, ho.nodup, fun t ht hv => (ho.places t ht hv).imp_right And.right⟩ hsame
  refine ⟨hlatch, fun n hn _ => hlatch.downward.ready_target hcon (mem_cons_self ..) hdec.block? ?_⟩
  rw [he, ← Option.some.inj hn, hrest]
  exact side.rest_mem_targets e t f

theorem Arrived.endless (hl : LoopAt l s b info) {next label W}
    (hexit : ∀ f, next = some f → ∃ x ∈ info.body, f ∈ l.succs x ∧ f ∉ info.body)
    (hc : Covers l s s' W (Deferred (⟨some b, next, label⟩ :: scopes) none s')) (hb : b ∈ s'.visited)
    (ho : Orderly l (⟨some b, next, label⟩ :: scopes) (fun t => true = true ∧ t = b)
      (s.openLoop b).takeLabel s') : Proceeds l scopes stop b s next s' := by
  refine ⟨⟨ho.downward, ho.nodup, fun t ht hv => (ho.outer.places t ht hv).imp_right And.right⟩, fun n hn _ => ?_⟩
  obtain ⟨x, hx, hs, hout⟩ := hexit n hn
  refine ho.downward.ready_succ hcon ?_ hs
  exact (body_visited hcon ha hl hc hb (fun t ht => .inl (Option.some.inj ht).symm)
    (fun t ht => by obtain ⟨_, -, -, hout⟩ := hexit t ht; exact hout)
    (fun v hv => by cases hv) hx).resolve_right (by simp)

end

mutual

theorem Region.orderly {scopes b stop entering out s out' reached s'}
    (hcon : Connected l) (h : Region l strict scopes b stop entering out s out' reached s') (hd : Downward l s)
    (hn : Nests l scopes s) (hready : some b ≠ stop → Ready l s b) (hbegun : entering = true → b ∈ s.loops) :
    Orderly l scopes (fun t => entering = true ∧ t = b) s s' := by
  match h with
  | .stop | .jump _ _ | .goto _ _ _ | .outside _ _ _ => exact .refl hd rfl
  | .skip _ hp _ =>
      rw [hcon.skipPast?] at hp
      cases hp
  | .last ha _ hb hc =>
      have harr : Arrived l scopes s b := ha.arrived hd hn hready hbegun
      exact (hc.orderly hcon harr hb).orderly.arrived ha
  | .next ha _ hb hc hr =>
      have harr : Arrived l scopes s b := ha.arrived hd hn hready hbegun
      obtain ⟨ho, hnext⟩ := hc.orderly hcon harr hb
      have ho2 := hr.orderly hcon ho.downward (hn.mono hc.grows) (hnext _ rfl) (by simp)
      exact (ho.arrived ha).trans ho2 (fun _ _ h => h) (fun _ _ h => by cases h.1)

theorem Construct.orderly {scopes b stop out s next out' s'} (hcon : Connected l)
    (h : Construct l strict scopes b stop out s next out' s') (ha : Arrived l scopes s b) (hb : l.isBlock b = true) :
    Proceeds l scopes stop b s next s' := by
  have hdown := ha.visit.downward
  have hnests := ha.nests.mono (.visit s b)
  match h with
  | .goes _ hblock ht => exact ha.goes hcon hblock ht
  | .ends _ _ _ => exact ⟨ha.visit, fun n hn => by cases hn⟩
  | @Construct.oneSided _ _ _ _ _ _ _ block e taken fall side _ _ _ _ _ _ hblock he _ _ hr _ =>
      refine ha.oneSided hcon hblock he (hr.orderly hcon hdown hnests (fun _ => ?_) (by simp)) hr.grows
      exact ha.ready_target hcon hblock (he ▸ side.arm_mem_targets e taken fall)
  | @Construct.twoSided _ _ _ _ _ _ _ block e taken fall _ _ _ _ _ _ _ _ _ hblock he _ hform hr1 hr2 =>
      have ho1 := hr1.orderly hcon hdown hnests
        (fun _ => ha.ready_target hcon hblock (he ▸ Side.fall.arm_mem_targets e taken fall)) (by simp)
      have ho2 := hr2.orderly hcon ho1.downward (hnests.mono hr1.grows)
        (fun _ => (ha.ready_target hcon hblock (he ▸ Side.taken.arm_mem_targets e taken fall)).mono hr1.grows) (by simp)
      exact ha.twoSided hcon hblock he hform ho1 ho2 (hr1.grows.trans hr2.grows) _
  | .switch _ hblock he hf harms =>
      refine ha.switch hcon hblock he hf (harms.orderly hcon hdown (ha.nests_switch hcon hblock he hf _) fun t ht => ?_)
        harms.grows
      exact ha.ready_target hcon hblock (he ▸ (mem_filter.mp ht).1)
  | .guarded hl hform hr =>
      obtain ⟨hinfo, hheader, -⟩ := pendingLoop_some hl.pending
      obtain ⟨hin, hfollow, hexit⟩ := hcon.guarded_exit hinfo hform
      rw [hheader] at hin hfollow
      refine ha.guarded hcon hfollow (hr.orderly hcon hdown ((ha.nests_header hcon hl hexit _).mono (.visit _ b))
        (fun _ => ?_) (by simp)) hr.grows
      exact hdown.ready_succ hcon (mem_cons_self ..) hin
  | .tested hl hform hr _ =>
      have ho := hr.orderly hcon ha.downward (ha.nests_latch hcon hl hform _) (fun _ => ha.ready)
        (fun _ => mem_cons_self ..)
      obtain ⟨W, hc, hW⟩ := hr.covers hcon.fits
      have hgrows := ((Grows.openLoop s b).trans (.takeLabel _)).trans hr.grows
      refine ha.tested hcon hl hform hgrows (hc.of_visited_eq rfl) (fun hne => ?_) ho
        (fun heq => hr.absent_visited (by simp [heq]))
      exact hc.entered hcon hb (hW (by simpa using hne)) (by simpa [eq_comm] using hne)
  | .endless hl hform hr =>
      have hexit : ∀ f, next = some f → ∃ x ∈ _, f ∈ l.succs x ∧ f ∉ _ :=
        fun f hf => Layout.loopForm_endless (hf ▸ hform)
      have ho := hr.orderly hcon ha.downward (ha.nests_header hcon hl hexit _) (fun _ => ha.ready)
        (fun _ => mem_cons_self ..)
      obtain ⟨W, hc, hW⟩ := hr.covers hcon.fits
      exact ha.endless hcon hl hexit (hc.of_visited_eq rfl) (hc.entered hcon hb hW (by simp)) ho
  | .guard ht _ _ _ _ =>
      have := (pendingTry_some ht.pending).1
      simp [hcon.no_plans] at this

theorem Part.orderly {absent scopes b stop entering s body s'}
    (hcon : Connected l) (h : Part l strict absent scopes b stop entering s body s') (hd : Downward l s)
    (hn : Nests l scopes s) (hready : some b ≠ stop → Ready l s b) (hbegun : entering = true → b ∈ s.loops) :
    Orderly l scopes (fun t => entering = true ∧ t = b) s s' := by
  match h with
  | .absent => exact .refl hd rfl
  | .present hr => exact hr.orderly hcon hd hn hready hbegun

theorem Arms.orderly {scopes default cases follow entries s arms s'}
    (hcon : Connected l) (h : Arms l strict scopes default cases follow entries s arms s') (hd : Downward l s)
    (hn : Nests l scopes s) (hready : ∀ e ∈ entries, Ready l s e) : Orderly l scopes (fun _ => False) s s' := by
  match h with
  | .nil => exact .refl hd rfl
  | .cons hr ha =>
      have h1 := hr.orderly hcon hd hn (fun _ => hready _ (mem_cons_self ..)) (by simp)
      have h2 := ha.orderly hcon h1.downward (hn.mono hr.grows) fun e he =>
        (hready e (mem_cons_of_mem _ he)).mono hr.grows
      exact h1.trans h2 (fun _ _ h => by cases h.1) (fun _ _ h => h)

end

end

end JvmLift.Walk

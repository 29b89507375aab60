import JvmLift.Proofs.Block.Names
import JvmLift.Proofs.ClassFile.Write
import JvmLift.Proofs.Hierarchy.Session
import JvmLift.Proofs.Protection.Accounting
import JvmLift.Proofs.Structure.Method
import JvmLift.Proofs.Sugar.Search
import JvmLift.Unit.Lift

/-!
# Failures stay inside one method

Each method of a class is reconstructed on its own. What it becomes does not depend on the other
methods, nor on what the resolver was asked on their behalf. One failure is not contained: where the
search for string switches breaks off in one method, the class has no result.
-/
namespace JvmLift

open Resolver (Agrees)

/-! ## Simulation -/

section

variable {ctx : MethodContext} {r : Resolver}

namespace Sim

variable (h : Agrees ctx.resolver r)

include h

theorem castArgs_congr (c : Call) : c.castArgs { ctx with resolver := r } = c.castArgs ctx := by
  have harg : overloadArg r = overloadArg ctx.resolver := by
    unfold overloadArg
    simp only [h.isAssignable]
  simp only [Call.castArgs, Call.isOverloaded, h.overloads, harg]

theorem lookups_call_congr (c : Call) : c.lookups { ctx with resolver := r } = c.lookups ctx := by
  have harg : argLookups r = argLookups ctx.resolver := by
    unfold argLookups
    simp only [h.lookups (Inquiry.steady_isAssignable _ _)]
  simp only [Call.lookups, Call.isOverloaded, h.overloads, h.lookups (Inquiry.steady_overloads _ _ _), harg]

theorem invoke_congr (kind : InvokeKind) (index : UInt16) (i : Instruction) :
    invoke { ctx with resolver := r } kind index i = invoke ctx kind index i := by
  unfold invoke
  simp only [castArgs_congr h]
  rfl

theorem step_congr (i : Instruction) : step { ctx with resolver := r } i = step ctx i := by
  unfold step
  cases i.op
  case invokeVirtual | invokeSpecial | invokeStatic | invokeInterface =>
    exact congrArg stay (invoke_congr h _ _ i)
  case leave kind => cases kind <;> rfl
  all_goals rfl

theorem lookups_congr (i : Instruction) (f : Frame) : lookups { ctx with resolver := r } i f = lookups ctx i f := by
  unfold lookups
  simp only [lookups_call_congr h]
  rfl

end Sim

namespace Simulation

variable (h : Agrees ctx.resolver r)

include h

theorem runSteps_congr {f asked exit is} :
    runSteps { ctx with resolver := r } f asked exit is = runSteps ctx f asked exit is := by
  induction is generalizing f asked exit with
  | nil => rfl
  | cons i is ih => simp only [runSteps, Sim.step_congr h, Sim.lookups_congr h, ih]

theorem simulateBlock_congr (p : Plan) (s : State) (b : BasicBlock) :
    simulateBlock { ctx with resolver := r } p s b = simulateBlock ctx p s b := by
  unfold simulateBlock
  simp only [runSteps_congr h]

theorem simulateAll_congr {p s order} :
    simulateAll { ctx with resolver := r } p s order = simulateAll ctx p s order := by
  induction order generalizing s with
  | nil => rfl
  | cons id order ih => simp only [simulateAll, simulateBlock_congr h, ih]

end Simulation

theorem simulate_congr (h : Agrees ctx.resolver r) (cf : ControlFlow) :
    simulate { ctx with resolver := r } cf = simulate ctx cf := by
  simp only [simulate, Simulation.simulateAll_congr h]

end

/-! ## Source forms -/

namespace Sugar

variable {r r' : Resolver}

theorem enumSwitch_congr (h : Agrees r r') : enumSwitch r = enumSwitch r' := by
  unfold enumSwitch
  simp only [h.switchMap?]

theorem enumWarning_congr (h : Agrees r r') : enumWarning r = enumWarning r' := by
  unfold enumWarning
  simp only [h.switchMap?]

end Sugar

theorem sugar?_congr {ctx r} (h : Agrees ctx.resolver r) (o : SugarOptions)
    (body : MethodBody) : sugar? { ctx with resolver := r } o body = sugar? ctx o body := by
  have henums : Sugar.recoverEnums r = Sugar.recoverEnums ctx.resolver := by
    funext stmts
    rw [Sugar.recoverEnums, Sugar.recoverEnums, Sugar.enumSwitch_congr h]
  have hlookups : Sugar.enumLookups r = Sugar.enumLookups ctx.resolver := by
    unfold Sugar.enumLookups
    simp only [h.lookups (Inquiry.steady_const (.switchMap _ _))]
  simp only [sugar?, Sugar.enums, Sugar.finished, henums, ← Sugar.enumWarning_congr h, hlookups]
  rfl

/-! ## Methods -/

namespace Lift

/-- What a method with code becomes: every stage of the reconstruction in turn, up to the first that fails. There is
no body where a stage breaks off. -/
def pipeline (o : LiftOptions) (pool : Pool) (r : Resolver) (m : Member) (decl : MethodDecl) :
    Except LiftFault (Option MethodBody) := do
  match m.code? pool with
  | none => .error (((m.codeFault? pool).map .format).getD .noCode)
  | some code =>
      let type ← MethodCode.parseDescriptor decl.descriptor
      let instructions ← (Instruction.decodeAll code.code).mapError .decode
      let handlers ← code.handlerEdges pool
      let protection := Protection.analyze instructions handlers
      let flow := ControlFlow.build instructions handlers protection.extraLeaders
      let c : MethodCode := ⟨code, type, m.flags.isStatic, instructions, handlers, protection, flow⟩
      if flow.blocks.isEmpty then return some ⟨[], false, []⟩
      let (blocks, _) ← (simulate (c.context pool r decl.parameters) flow).mapError (·.fault)
      return do
        let body ← structureMethod? flow blocks protection o.foldConditions
        return (← sugar? (c.sugarContext r) o.sugar body).1

variable {o : LiftOptions} {pool : Pool} {r : Resolver} {m : Member} {decl : MethodDecl}

theorem pipeline_eq {code} (hcode : m.code? pool = some code) : pipeline o pool r m decl = do
    let c ← MethodCode.ofMember pool m decl.descriptor if c.flow.blocks.isEmpty then return some ⟨[], false, []⟩
    let (blocks, _) ← (c.simulated pool r decl.parameters).mapError (·.fault) return do
      let body ← c.structured o blocks
      return (← c.sugared o r body).1 := by
  unfold pipeline MethodCode.ofMember
  simp only [hcode]
  -- a stage that fails ends both in the same way
  cases MethodCode.parseDescriptor decl.descriptor with
  | error => rfl
  | ok type =>
      cases (Instruction.decodeAll code.code).mapError LiftFault.decode with
      | error => rfl
      | ok instructions => cases code.handlerEdges pool <;> rfl

theorem methodBody_result {code} (hcode : m.code? pool = some code) : (methodBody o pool r m decl).map (·.result) =
    match pipeline o pool r m decl with
    | .ok body => body.map .ok
    | .error fault => some (.error fault) := by
  rw [pipeline_eq hcode]
  unfold methodBody
  cases MethodCode.ofMember pool m decl.descriptor with
  | error => rfl
  | ok c =>
      simp only [bind, Except.bind, pure, Except.pure]
      split
      · rfl
      · cases c.simulated pool r decl.parameters with
        | error => rfl
        | ok simulated =>
            cases hbody : c.structured o simulated.1 with
            | none => simp [Except.mapError, hbody]
            | some body =>
                cases hsugared : c.sugared o r body <;> simp [Except.mapError, hbody, hsugared]

def searched (o : LiftOptions) (r : Resolver) (c : MethodCode) (blocks : List Block) : List Tree :=
  Sugar.enums (c.sugarContext r) o.sugar (Sugar.valuesAndLoops (c.sugarContext r) o.sugar
    (structureMethod c.flow blocks c.protection o.foldConditions).stmts)

theorem structured_eq {c : MethodCode} (h : MethodCode.ofMember pool m decl.descriptor = .ok c) (blocks : List Block) :
    c.structured o blocks = some (structureMethod c.flow blocks c.protection o.foldConditions) := by
  refine Structure.structureMethod?_eq fun plan hplan => Nat.le_of_lt ?_
  unfold MethodCode.ofMember at h
  split at h
  · cases h
  · obtain ⟨_, -, h⟩ := bind_eq_ok.mp h
    obtain ⟨_, -, h⟩ := bind_eq_ok.mp h
    obtain ⟨_, -, h⟩ := bind_eq_ok.mp h
    cases h
    exact Protection.start_lt_stop hplan

/-- The search for strings breaks off in a method whose other stages do not fail. -/
def BreaksOff (o : LiftOptions) (pool : Pool) (r : Resolver) (m : Member) (decl : MethodDecl) : Prop :=
  o.recoverStringSwitch = true ∧ ∃ c blocks asked, MethodCode.ofMember pool m decl.descriptor = .ok c ∧
    c.flow.blocks ≠ [] ∧ c.simulated pool r decl.parameters = .ok (blocks, asked) ∧
    Sugar.SearchBreaksOff (searched o r c blocks)

theorem pipeline_eq_ok_none_iff : pipeline o pool r m decl = .ok none ↔ BreaksOff o pool r m decl := by
  unfold BreaksOff
  cases hcode : m.code? pool with
  | none => simp [pipeline, hcode, MethodCode.ofMember]
  | some code =>
      rw [pipeline_eq hcode]
      constructor
      · intro h
        obtain ⟨c, hc, h⟩ := bind_eq_ok.mp h
        split at h
        · cases h
        · rename_i hempty
          obtain ⟨⟨blocks, asked⟩, hsim, h⟩ := bind_eq_ok.mp h
          simp only [structured_eq hc, pure, Except.pure, Except.ok.injEq, Option.bind_eq_bind, Option.bind_some,
            Option.bind_eq_none_iff, reduceCtorEq, imp_false] at h
          obtain ⟨hsearch, hbreaks⟩ := Sugar.sugar?_eq_none_iff.mp (Option.eq_none_iff_forall_ne_some.mpr h)
          refine ⟨hsearch, c, blocks, asked, hc, by simpa using hempty, ?_, hbreaks⟩
          cases hs : c.simulated pool r decl.parameters with
          | error => simp [hs, Except.mapError] at hsim
          | ok => simpa [hs, Except.mapError] using hsim
      · rintro ⟨hsearch, c, blocks, asked, hc, hempty, hsim, hbreaks⟩
        have hnone : c.sugared o r _ = none := Sugar.sugar?_eq_none_iff.mpr ⟨hsearch, hbreaks⟩
        simp [hc, hsim, hempty, bind, Except.bind, pure, Except.pure, Except.mapError, structured_eq hc, hnone]

/-- A method without code: it is abstract or native, or has no attribute for code. -/
def Codeless (pool : Pool) (m : Member) : Prop :=
  m.flags.isAbstract ∨ m.flags.isNative ∨ ∀ a ∈ m.attributes, pool.utf8? a.nameIndex ≠ some "Code"

theorem interpret_eq_ok_some {a : Attribute} {body} : a.interpret pool = .ok (some body) ↔
    ∃ name reader, pool.utf8 a.nameIndex = .ok name ∧ Attribute.bodyReader name = some reader ∧
    reader a.info = some (body, []) := by
  unfold Attribute.interpret
  cases hname : pool.utf8 a.nameIndex with
  | error fault => simp [bind, Except.bind]
  | ok name =>
      cases hreader : Attribute.bodyReader name with
      | none => simp [bind, Except.bind, pure, Except.pure, hreader]
      | some reader =>
          rcases hread : reader a.info with _ | ⟨body', _ | _⟩ <;>
            simp [bind, Except.bind, pure, Except.pure, hreader, hread]

theorem name_of_code {name reader info rest code}
    (hreader : Attribute.bodyReader name = some reader) (h : reader info = some (.code code, rest)) :
    name = "Code" := by
  unfold Attribute.bodyReader at hreader
  split at hreader
  · rfl
  all_goals cases hreader
  all_goals
    simp [Reader.bind_eq_some, Reader.map_eq_some, Reader.seq_eq_some, Reader.pure_eq_some] at h

theorem exists_code {a : Attribute} (hname : pool.utf8 a.nameIndex = .ok "Code")
    {body} (h : a.interpret pool = .ok body) : ∃ code, body = some (.code code) := by
  have hreader : Attribute.bodyReader "Code" = some (.code <$> Attribute.readCode) := rfl
  unfold Attribute.interpret at h
  simp only [hname, hreader, bind, Except.bind] at h
  split at h
  · cases h
  · rename_i body' hread
    cases h
    obtain ⟨code, -, rfl⟩ := Reader.map_eq_some.mp hread
    exact ⟨code, rfl⟩
  · cases h

theorem utf8?_eq_some {index text} : pool.utf8? index = some text ↔ pool.utf8 index = .ok text := by
  unfold Pool.utf8?
  cases pool.utf8 index <;> simp [Except.toOption]

theorem code_eq_none_iff : m.code? pool = none ∧ m.codeFault? pool = none ↔
      ∀ a ∈ m.attributes, pool.utf8? a.nameIndex ≠ some "Code" := by
  simp only [Member.code?, Attribute.find?, Member.codeFault?, List.findSome?_eq_none_iff]
  constructor
  · rintro ⟨hcode, hfault⟩ a ha hname
    have hfault := hfault a ha
    rw [if_pos hname] at hfault
    cases hbody : a.interpret pool with
    | error fault => simp [hbody] at hfault
    | ok body =>
        obtain ⟨code, rfl⟩ := exists_code (utf8?_eq_some.mp hname) hbody
        have hcode := hcode a ha
        simp [Attribute.body?_eq_some.mpr hbody] at hcode
  · intro hnone
    refine ⟨fun a ha => ?_, fun a ha => if_neg (hnone a ha)⟩
    refine Option.bind_eq_none_iff.mpr fun body hbody => ?_
    obtain ⟨name, reader, hname, hreader, hread⟩ :=
      interpret_eq_ok_some.mp (Attribute.body?_eq_some.mp hbody)
    cases body with
    | code code =>
        obtain rfl := name_of_code hreader hread
        exact absurd (utf8?_eq_some.mpr hname) (hnone a ha)
    | _ => rfl

theorem method_of_codeless (h : Codeless pool m) : method o pool r m decl = some ⟨decl, [], []⟩ := by
  unfold method
  rcases h with h | h | h
  · simp [h]
  · simp [h]
  · obtain ⟨hcode, hfault⟩ := code_eq_none_iff.mpr h
    simp [hcode, hfault]

theorem method_of_code (o : LiftOptions) (r : Resolver) (decl : MethodDecl) (h : ¬Codeless pool m) :
    match pipeline o pool r m decl with
    | .ok none => method o pool r m decl = none
    | .ok (some body) => ∃ asked, method o pool r m decl = some (finished o pool m decl ⟨.ok body, asked⟩)
    | .error fault => ∃ asked, method o pool r m decl = some (finished o pool m decl ⟨.error fault, asked⟩) := by
  simp only [Codeless, not_or] at h
  obtain ⟨habstract, hnative, hcode⟩ := h
  unfold method
  simp only [habstract, hnative]
  cases hc : m.code? pool with
  | some code =>
      have hresult : (methodBody o pool r m decl).map (·.result) = _ := methodBody_result hc
      rcases hp : pipeline o pool r m decl with fault | _ | body <;> rw [hp] at hresult
      · obtain ⟨outcome, hout, hfault⟩ := Option.map_eq_some_iff.mp hresult
        exact ⟨outcome.asked, by simp [hout, ← hfault]⟩
      · simp [Option.map_eq_none_iff.mp hresult]
      · obtain ⟨outcome, hout, hbody⟩ := Option.map_eq_some_iff.mp hresult
        exact ⟨outcome.asked, by simp [hout, ← hbody]⟩
  | none =>
      cases hf : m.codeFault? pool with
      | some fault =>
          simp only [pipeline, hc, hf]
          exact ⟨[], rfl⟩
      | none => exact absurd (code_eq_none_iff.mp ⟨hc, hf⟩) hcode

theorem method_eq_none_iff : method o pool r m decl = none ↔ ¬Codeless pool m ∧ BreaksOff o pool r m decl := by
  rw [← pipeline_eq_ok_none_iff]
  by_cases hcode : Codeless pool m
  · simp [method_of_codeless hcode, hcode]
  · have hmethod := method_of_code o r decl hcode
    rcases hp : pipeline o pool r m decl with fault | _ | body <;> rw [hp] at hmethod
    · obtain ⟨asked, hasked⟩ := hmethod
      simp [hasked]
    · simp [hmethod, hcode]
    · obtain ⟨asked, hasked⟩ := hmethod
      simp [hasked]

theorem method_congr {r'} (h : Agrees r' r) : method o pool r' m decl = method o pool r m decl := by
  have hsim (c : MethodCode) : c.simulated pool r' decl.parameters = c.simulated pool r decl.parameters :=
    (@simulate_congr (c.context pool r' decl.parameters) r h c.flow).symm
  have hsugar (c : MethodCode) (body : MethodBody) : c.sugared o r' body = c.sugared o r body :=
    (@sugar?_congr (c.sugarContext r') r h o.sugar body).symm
  simp only [method, methodBody, hsim, hsugar]

/-- Methods that are reconstructed one after the other become what each becomes with a resolver that has not been
asked anything: what earlier ones have looked up is recalled, and makes no difference. -/
theorem methods_run (o : LiftOptions) (pool : Pool) {path : ClassPath} {current : Option ClassFile} {s : Session}
    {asked : List String} (h : s.Recalls path current asked) (members : List (Member × MethodDecl)) :
    match methods o pool (.ofPath path current) s members with
    | none => ∃ p ∈ members, method o pool (.ofPath path current) p.1 p.2 = none
    | some (lifted, _) => members.map (fun p => method o pool (.ofPath path current) p.1 p.2) = lifted.map some := by
  induction members generalizing s asked with
  | nil => rfl
  | cons p members ih =>
      rw [methods, method_congr h.agrees]
      cases hp : method o pool (.ofPath path current) p.1 p.2 with
      | none => exact ⟨p, List.mem_cons_self, hp⟩
      | some lifted =>
          have hrest := ih (h.lookUp lifted.asked)
          simp only [Option.bind_eq_bind, Option.bind_some]
          cases hm : methods o pool (.ofPath path current) (s.lookUp lifted.asked) members with
          | none =>
              rw [hm] at hrest
              obtain ⟨q, hq, hnone⟩ := hrest
              exact ⟨q, List.mem_cons_of_mem _ hq, hnone⟩
          | some others =>
              rw [hm] at hrest
              exact congr (congrArg List.cons hp) hrest

end Lift

/-! ## Classes -/

namespace Declare

theorem forall₂_mapM {α β} {f : α → Build β} {as bs s s'}
    (h : as.mapM f s = .ok (bs, s')) : List.Forall₂ (fun a b => ∃ s s', f a s = .ok (b, s')) as bs := by
  induction as generalizing bs s with
  | nil =>
      cases h
      exact .nil
  | cons a as ih =>
      rw [List.mapM_cons] at h
      obtain ⟨⟨b, s1⟩, hb, h⟩ := bind_eq_ok.mp h
      obtain ⟨⟨bs', s2⟩, hbs, h⟩ := bind_eq_ok.mp h
      cases h
      exact .cons ⟨s, s1, hb⟩ (ih hbs)

def Yields {α : Type} (P : α → Prop) (x : Build α) : Prop := ∀ ⦃s a s'⦄, x s = .ok (a, s') → P a

theorem Yields.pure {α} {P : α → Prop} {a} (h : P a) : Yields P (Pure.pure a) := by
  intro s a' s' ha
  cases ha
  exact h

theorem Yields.bind {α β} {P : β → Prop} {x : Build α} {f} (h : ∀ a, Yields P (f a)) : Yields P (x >>= f) := by
  intro s b s' hb
  obtain ⟨⟨a, s1⟩, -, hb⟩ := bind_eq_ok.mp hb
  exact h a hb

theorem method_open (pool : Pool) (kind : ClassKind) (m : Member) :
    Yields (fun d => d.body = none ∧ d.error = none) (method pool kind m) := by
  refine .bind fun name => .bind fun descriptor => .bind fun erased => ?_
  split
  · refine .bind fun text => .bind fun generic => .bind fun names => ?_
    split <;> exact .bind fun thrown => .pure ⟨rfl, rfl⟩
  · refine .bind fun generic => .bind fun names => ?_
    split <;> exact .bind fun thrown => .pure ⟨rfl, rfl⟩

theorem methods_open {c decl warnings} (h : ClassDecl.ofClass c = .ok (decl, warnings)) :
    List.Forall₂ (fun _ d => d.body = none ∧ d.error = none) c.methods decl.methods := by
  obtain ⟨_, -, h⟩ := bind_eq_ok.mp h
  obtain ⟨_, -, h⟩ := bind_eq_ok.mp h
  obtain ⟨_, -, h⟩ := bind_eq_ok.mp h
  obtain ⟨_, -, h⟩ := bind_eq_ok.mp h
  obtain ⟨_, -, h⟩ := bind_eq_ok.mp h
  obtain ⟨⟨methods, _⟩, hmethods, h⟩ := bind_eq_ok.mp h
  cases h
  exact (forall₂_mapM hmethods).imp fun _ _ ⟨_, _, hm⟩ => method_open _ _ _ hm

end Declare

/-- What a declared method becomes. The declaration is kept. Nothing is added to a method without
code; any other has a body or an error and not both, as the stages of its reconstruction say with a
resolver that has not been asked anything. -/
structure Lift.Becomes (o : LiftOptions) (pool : Pool) (r : Resolver) (m : Member) (d d' : MethodDecl) :
    Prop where
  declared : d' = { d with body := d'.body, error := d'.error }
  codeless : Codeless pool m → d'.body = none ∧ d'.error = none
  exclusive : ¬Codeless pool m → d'.body.isSome ≠ d'.error.isSome
  alone : ¬Codeless pool m →
    match pipeline o pool r m d with
    | .ok body => body.isSome ∧ d'.body = body ∧ d'.error = none
    | .error fault => d'.body = none ∧ d'.error = some (failureText o pool m d fault)

theorem Lift.becomes_method {o pool r m d} (hopen : d.body = none ∧ d.error = none) {lifted}
    (h : method o pool r m d = some lifted) : Becomes o pool r m d lifted.decl := by
  by_cases hcode : Codeless pool m
  · rw [method_of_codeless hcode] at h
    cases h
    exact ⟨rfl, fun _ => hopen, fun h => absurd hcode h, fun h => absurd hcode h⟩
  · have hmethod := method_of_code o r d hcode
    rcases hp : pipeline o pool r m d with fault | _ | body <;> rw [hp, h] at hmethod
    · obtain ⟨asked, hasked⟩ := hmethod
      cases hasked
      refine ⟨rfl, fun h => absurd h hcode, fun _ => by simp [finished, hopen.1], fun _ => ?_⟩
      rw [hp]
      exact ⟨hopen.1, rfl⟩
    · cases hmethod
    · obtain ⟨asked, hasked⟩ := hmethod
      cases hasked
      refine ⟨rfl, fun h => absurd h hcode, fun _ => by simp [finished, hopen.2], fun _ => ?_⟩
      rw [hp]
      exact ⟨rfl, rfl, hopen.2⟩

/-- Failures stay inside one method. If the declarations of a class can be read, the class is
reconstructed with the methods it declares, in their order, and each becomes what it becomes on its
own with a resolver that has not been asked anything. The one exception is a method in which the search
for strings breaks off: there is no class then. -/
theorem liftClass_isolates_methods {c : ClassFile} {decl : ClassDecl} {warnings : List String}
    (h : ClassDecl.ofClass c = .ok (decl, warnings)) (o : LiftOptions) (path : ClassPath) :
    decl.methods.length = c.methods.length ∧
    (liftClass o path c = none ↔ ∃ (i : Nat) (m : Member) (d : MethodDecl),
      c.methods[i]? = some m ∧ decl.methods[i]? = some d ∧ ¬Lift.Codeless c.pool m ∧
      Lift.BreaksOff o c.pool (.ofPath path (some c)) m d) ∧
    ∀ result, liftClass o path c = some result →
      ∃ unit, result = .ok unit ∧ unit.decl = { decl with methods := unit.decl.methods } ∧
        unit.decl.methods.length = c.methods.length ∧
        ∀ (i : Nat) m d d', c.methods[i]? = some m → decl.methods[i]? = some d → unit.decl.methods[i]? = some d' →
          Lift.Becomes o c.pool (.ofPath path (some c)) m d d' := by
  have hopen := Declare.methods_open h
  have hlength := hopen.length_eq
  have hrun := Lift.methods_run o c.pool (Session.recalls_ofPath path (some c)) (c.methods.zip decl.methods)
  refine ⟨hlength.symm, ?_⟩
  simp only [liftClass, h]
  cases hm : Lift.methods o c.pool (.ofPath path (some c)) (.ofPath path (some c)) (c.methods.zip decl.methods) with
  | none =>
      rw [hm] at hrun
      obtain ⟨⟨m, d⟩, hp, hnone⟩ := hrun
      obtain ⟨i, hi⟩ := List.mem_iff_getElem?.mp hp
      obtain ⟨hm, hd⟩ := List.getElem?_zip_eq_some.mp hi
      exact ⟨iff_of_true rfl ⟨i, m, d, hm, hd, Lift.method_eq_none_iff.mp hnone⟩, by simp⟩
  | some run =>
      obtain ⟨lifted, s⟩ := run
      rw [hm] at hrun
      have hmethod (i : Nat) {m d} (hm : c.methods[i]? = some m) (hd : decl.methods[i]? = some d) :
          some (Lift.method o c.pool (.ofPath path (some c)) m d) = lifted[i]?.map some := by
        simpa [List.getElem?_zipWith, hm, hd, List.zip] using congrArg (·[i]?) hrun
      refine ⟨iff_of_false (by simp) ?_, ?_⟩
      · rintro ⟨i, m, d, hm, hd, hbreaks⟩
        have hlifted := hmethod i hm hd
        rw [Lift.method_eq_none_iff.mpr hbreaks] at hlifted
        cases hi : lifted[i]? <;> simp [hi] at hlifted
      · rintro result hresult
        cases hresult
        refine ⟨_, rfl, rfl, ?_, fun i m d d' hm hd hd' => ?_⟩
        · have hcount := congrArg List.length hrun
          simpa [CompilationUnit.ofDecl, ← hlength, eq_comm] using hcount
        · obtain ⟨l, hl, rfl⟩ : ∃ l, lifted[i]? = some l ∧ l.decl = d' := by
            simpa [CompilationUnit.ofDecl] using hd'
          have hlifted := hmethod i hm hd
          rw [hl] at hlifted
          obtain ⟨hi, rfl⟩ := List.getElem?_eq_some_iff.mp hm
          obtain ⟨hi', rfl⟩ := List.getElem?_eq_some_iff.mp hd
          exact Lift.becomes_method (hopen.get hi hi') (Option.some.inj hlifted)

/-- A class with a method that takes a value off an empty stack, one that returns, and an abstract
one. -/
def failingBeside : ClassFile where
  minor := 0
  major := 52
  poolCount := 6
  pool := .ofConstants [.ofText "A", .classRef 1, .ofText "Code", .ofText "f", .ofText "()V"]
  flags := ⟨0x0021⟩
  thisClass := 2
  superClass := 0
  interfaces := []
  fields := []
  methods := [
    ⟨⟨0x0009⟩, 4, 5, [⟨3, [0, 0, 0, 0, 0, 0, 0, 2, 0x57, 0xb1, 0, 0, 0, 0]⟩]⟩,
    ⟨⟨0x0009⟩, 4, 5, [⟨3, [0, 0, 0, 0, 0, 0, 0, 1, 0xb1, 0, 0, 0, 0]⟩]⟩,
    ⟨⟨0x0401⟩, 4, 5, []⟩]
  attributes := []

theorem liftClass_isolates_failingBeside :
    ∃ decl warnings unit, ClassDecl.ofClass failingBeside = .ok (decl, warnings) ∧
      liftClass .standard ⟨[]⟩ failingBeside = some (.ok unit) ∧
      unit.decl.methods.map (fun d => (d.body.isSome, d.error.isSome)) =
        [(false, true), (true, false), (false, false)] ∧
      ∀ (i : Nat) m d d', failingBeside.methods[i]? = some m → decl.methods[i]? = some d →
        unit.decl.methods[i]? = some d' →
        Lift.Becomes .standard failingBeside.pool (.ofPath ⟨[]⟩ (some failingBeside)) m d d' := by
  obtain ⟨-, -, hresult⟩ := liftClass_isolates_methods (c := failingBeside) rfl .standard ⟨[]⟩
  have hshape : (liftClass .standard ⟨[]⟩ failingBeside).bind
      (fun result => result.toOption.map fun u => u.decl.methods.map fun d => (d.body.isSome, d.error.isSome)) =
      some [(false, true), (true, false), (false, false)] := by decide +kernel
  obtain ⟨result, hlift, hshape⟩ := Option.bind_eq_some_iff.mp hshape
  obtain ⟨unit, rfl, -, -, hmethods⟩ := hresult result hlift
  exact ⟨_, _, unit, rfl, hlift, Option.some.inj hshape, hmethods⟩

/-- A class with a switch over a string in front of a switch over a hash code, and a method that returns. -/
def hashBehindString : ClassFile where
  minor := 0
  major := 52
  poolCount := 12
  pool := .ofConstants [.ofText "A", .classRef 1, .ofText "Code", .ofText "g", .ofText "(LA;LA;)V", .ofText "hashCode",
    .ofText "()I", .nameAndType 6 7, .methodRef 2 8, .ofText "f", .ofText "()V"]
  flags := ⟨0x0021⟩
  thisClass := 2
  superClass := 0
  interfaces := []
  fields := []
  methods := [
    ⟨⟨0x0009⟩, 4, 5, [⟨3, [0, 1, 0, 4, 0, 0, 0, 49, 42, 77, 2, 62, 44, 182, 0, 9, 171, 0, 0, 0, 0, 0, 0, 12, 0, 0, 0, 0,
      29, 171, 0, 0, 0, 0, 0, 11, 0, 0, 0, 0, 43, 182, 0, 9, 171, 0, 0, 0, 0, 0, 0, 12, 0, 0, 0, 0, 177, 0, 0, 0, 0]⟩]⟩,
    ⟨⟨0x0009⟩, 10, 11, [⟨3, [0, 0, 0, 0, 0, 0, 0, 1, 0xb1, 0, 0, 0, 0]⟩]⟩]
  attributes := []
theorem liftClass_hashBehindString : (ClassDecl.ofClass hashBehindString).toOption.isSome = true ∧
    liftClass .standard ⟨[]⟩ hashBehindString = none := by decide +kernel

end JvmLift

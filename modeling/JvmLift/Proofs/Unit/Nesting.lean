import JvmLift.Unit.Recorder

/-!
# Nesting of events

A printer keeps a stack of what is open. Whatever a unit holds, its events are a balanced word over
the starts and their ends, and the recorder accepts exactly the balanced words.
-/
namespace JvmLift

open List

variable {s : Section} {c e : Event}

namespace Event

/-- A start and an end that belong together. A declaration ends with the kind it began with. -/
inductive Pairs : Event → Event → Prop
  | declaration (kind : DeclKind) (name : String) : Pairs (.startDeclaration kind name) (.endDeclaration kind)
  | indent : Pairs .indent .unindent
  | comment : Pairs .startComment .endComment
  | javadoc : Pairs .startJavadoc .endJavadoc
  | error : Pairs .startError .endError
  | imports : Pairs .startImports .endImports

def IsPlain : Event → Prop
  | .reference .. | .line _ | .statement _ | .text _ => True
  | _ => False

/-- Every start has its end, and what stands between them is balanced as well. -/
inductive Balanced : List Event → Prop
  | nil : Balanced []
  | plain {e es} : e.IsPlain → Balanced es → Balanced (e :: es)
  | nest {e c inner rest} : Pairs e c → Balanced inner → Balanced rest → Balanced (e :: (inner ++ c :: rest))

theorem opened?_eq_some (h : e.opened? = some s) (hc : c.closed? = some s) : Pairs e c := by
  cases e <;> cases h <;> cases c <;> cases hc <;> constructor

theorem Pairs.section (h : Pairs e c) : ∃ s, e.opened? = some s ∧ c.opened? = none ∧ c.closed? = some s := by
  cases h <;> exact ⟨_, rfl, rfl, rfl⟩

theorem isPlain_iff : e.IsPlain ↔ e.opened? = none ∧ e.closed? = none := by
  cases e <;> simp [IsPlain, opened?, closed?]

namespace Balanced

theorem append {xs ys} (hx : Balanced xs) (hy : Balanced ys) : Balanced (xs ++ ys) := by
  induction hx with
  | nil => exact hy
  | plain he _ ih => exact .plain he ih
  | nest hp hinner _ _ ih =>
      rw [cons_append, append_assoc]
      exact .nest hp hinner ih

theorem wrap {inner} (hp : Pairs e c) (h : Balanced inner) : Balanced (e :: (inner ++ [c])) :=
  .nest hp h .nil

theorem ofPlain {es} (h : ∀ e ∈ es, e.IsPlain) : Balanced es := by
  induction es with
  | nil => exact .nil
  | cons e es ih =>
      rw [forall_mem_cons] at h
      exact .plain h.1 (ih h.2)

theorem flatMap {α} {xs : List α} {f} (h : ∀ x ∈ xs, Balanced (f x)) : Balanced (xs.flatMap f) := by
  induction xs with
  | nil => exact .nil
  | cons x xs ih =>
      rw [forall_mem_cons] at h
      exact h.1.append (ih h.2)

end Balanced

/-! ## The events of a statement -/

theorem isPlain_ofExpr (e : Expr) : ∀ x ∈ ofExpr e, x.IsPlain := by
  intro x hx
  obtain ⟨node, -, hx⟩ := mem_flatMap.mp hx
  cases node <;> simp only [ofNode, mem_singleton, not_mem_nil] at hx <;> subst hx <;> trivial

theorem balanced_ofExpr (e : Expr) : Balanced (ofExpr e) := .ofPlain (isPlain_ofExpr e)

theorem balanced_text (s : String) : Balanced [.text s] := .plain trivial .nil

theorem balanced_ofComment (text : String) : Balanced (ofComment text) := .wrap .comment (balanced_text text)

end Event

namespace Tree

open Event (Balanced)

theorem isPlain_ownReferences (t : Tree) : ∀ e ∈ t.ownReferences, e.IsPlain := by
  intro e he
  unfold ownReferences at he
  split at he
  · rw [mem_singleton.mp he]
    trivial
  · simp only [mem_flatMap, mem_map] at he
    obtain ⟨_, _, _, _, rfl⟩ := he
    trivial
  · rw [mem_singleton.mp he]
    trivial
  · cases he

theorem balanced_headEvents (t : Tree) : Balanced t.headEvents := by
  have hline : ∀ e ∈ t.lineEvents, e.IsPlain := by
    intro e he
    unfold lineEvents at he
    split at he
    · obtain ⟨_, _, rfl⟩ := mem_map.mp he
      trivial
    · obtain ⟨_, _, rfl⟩ := mem_map.mp he
      trivial
    · cases he
  refine (Balanced.ofPlain hline).append (.plain trivial ?_)
  exact (Balanced.ofPlain t.isPlain_ownReferences).append (.flatMap fun e _ => Event.balanced_ofExpr e)

theorem balanced_partEvents (part : Option Tree) : Balanced (partEvents part) :=
  .flatMap fun _ _ => .flatMap fun e _ => Event.balanced_ofExpr e

mutual

theorem balanced_events : (t : Tree) → Balanced t.events
  | .comment text => by
      rw [events]
      exact Event.balanced_ofComment text
  | .labeled _ t => by
      rw [events]
      exact .plain trivial (balanced_events t)
  | .forLoop i e u b => by
      rw [events]
      have hparts := (balanced_partEvents i).append (balanced_partEvents u)
      exact .plain trivial ((hparts.append (Event.balanced_ofExpr e)).append (.wrap .indent (balanced_eventsList b)))
  | .ifElse e t b => by
      rw [events]
      have hthen := (balanced_headEvents (.ifElse e t b)).append (.wrap .indent (balanced_eventsList t))
      exact hthen.append (balanced_eventsBlock b)
  | .whileLoop _ b | .doWhile b _ | .forEach _ _ b | .synchronized _ b => by
      rw [events]
      exact (balanced_headEvents _).append (.wrap .indent (balanced_eventsList b))
  | .switch k e arms => by
      rw [events]
      exact (balanced_headEvents _).append (balanced_eventsArms arms)
  | .tryCatch s b cs c => by
      rw [events]
      have hbody := (balanced_headEvents (.tryCatch s b cs c)).append (.wrap .indent (balanced_eventsList b))
      exact (hbody.append (balanced_eventsClauses cs)).append (balanced_eventsBlock c)
  | .simple s => by simpa [events] using balanced_headEvents (.simple s)
  | .declare v e l => by simpa [events] using balanced_headEvents (.declare v e l)
  | .breakTo l => by simpa [events] using balanced_headEvents (.breakTo l)
  | .continueTo l => by simpa [events] using balanced_headEvents (.continueTo l)
  | .label l => by simpa [events] using balanced_headEvents (.label l)
  | .goto l => by simpa [events] using balanced_headEvents (.goto l)

theorem balanced_eventsList : (ts : List Tree) → Balanced (eventsList ts)
  | [] => by
      rw [eventsList]
      exact .nil
  | t :: ts => by
      rw [eventsList]
      exact (balanced_events t).append (balanced_eventsList ts)

theorem balanced_eventsBlock : (b : Option (List Tree)) → Balanced (eventsBlock b)
  | none => by
      rw [eventsBlock]
      exact .nil
  | some b => by
      rw [eventsBlock]
      exact .wrap .indent (balanced_eventsList b)

theorem balanced_eventsArms : (arms : List (Arm × List Tree)) → Balanced (eventsArms arms)
  | [] => by
      rw [eventsArms]
      exact .nil
  | (_, b) :: rest => by
      rw [eventsArms]
      exact (Balanced.wrap .indent (balanced_eventsList b)).append (balanced_eventsArms rest)

theorem balanced_eventsClauses : (clauses : List (Clause × List Tree)) → Balanced (eventsClauses clauses)
  | [] => by
      rw [eventsClauses]
      exact .nil
  | (_, b) :: rest => by
      rw [eventsClauses]
      exact (Balanced.wrap .indent (balanced_eventsList b)).append (balanced_eventsClauses rest)

end

end Tree

/-! ## The events of a unit -/

namespace Event

theorem balanced_ofAnnotations (annotations : List AnnotationUse) : Balanced (ofAnnotations annotations) := by
  unfold ofAnnotations
  split
  · exact .wrap .javadoc (balanced_text _)
  · exact .nil

theorem balanced_ofField (f : FieldDecl) : Balanced (ofField f) := by
  have hinit : Balanced (f.initializer.toList.flatMap ofExpr) := .flatMap fun e _ => balanced_ofExpr e
  exact (balanced_ofAnnotations f.annotations).append (.wrap (.declaration .field f.name) hinit)

theorem balanced_ofBody (b : MethodBody) : Balanced (ofBody b) := by
  have hnote : Balanced (if b.approximate then ofComment "control flow could not be fully structured" else []) := by
    split
    · exact balanced_ofComment _
    · exact .nil
  have hwarnings : Balanced (b.warnings.flatMap ofComment) := .flatMap fun text _ => balanced_ofComment text
  exact (hnote.append hwarnings).append (.wrap .indent (Tree.balanced_eventsList b.stmts))

theorem balanced_ofMethod (m : MethodDecl) : Balanced (ofMethod m) := by
  have herror : Balanced (m.error.toList.flatMap fun e => [.startError, .text e, .endError]) :=
    .flatMap fun e _ => .wrap .error (balanced_text e)
  have hbody : Balanced (m.body.toList.flatMap ofBody) := .flatMap fun b _ => balanced_ofBody b
  exact (balanced_ofAnnotations m.annotations).append (.wrap (.declaration _ m.name) (herror.append hbody))

theorem balanced_ofClass (c : ClassDecl) (includeSynthetic : Bool) : Balanced (ofClass c includeSynthetic) := by
  have hdecl : ∀ (kind : DeclKind) (fields : List FieldDecl) (methods : List MethodDecl),
      Balanced (.startDeclaration kind c.internalName :: .indent ::
        (fields.flatMap ofField ++ methods.flatMap ofMethod ++ [.unindent, .endDeclaration kind])) := by
    intro kind fields methods
    have hfields : Balanced (fields.flatMap ofField) := .flatMap fun f _ => balanced_ofField f
    have hmethods : Balanced (methods.flatMap ofMethod) := .flatMap fun m _ => balanced_ofMethod m
    have hmembers := Balanced.wrap .indent (hfields.append hmethods)
    simpa using Balanced.wrap (.declaration kind c.internalName) hmembers
  exact (balanced_ofAnnotations c.annotations).append (hdecl _ _ _)

theorem balanced_ofUnit (u : CompilationUnit) (includeSynthetic : Bool) : Balanced (ofUnit u includeSynthetic) := by
  have hpackage : Balanced (u.package.toList.flatMap ofPackage) :=
    .flatMap fun name _ => .wrap (.declaration .package name) .nil
  have hwarnings : Balanced (u.warnings.flatMap ofComment) := .flatMap fun text _ => balanced_ofComment text
  have hall : ∀ imports : List Event, (∀ e ∈ imports, e.IsPlain) →
      Balanced (u.package.toList.flatMap ofPackage ++ .startImports :: imports ++ .endImports ::
        u.warnings.flatMap ofComment ++ ofClass u.decl includeSynthetic) := by
    intro imports himports
    have happend := ((hpackage.append (.wrap .imports (.ofPlain himports))).append hwarnings).append
      (balanced_ofClass u.decl includeSynthetic)
    simpa using happend
  refine hall _ fun e he => ?_
  obtain ⟨_, _, rfl⟩ := mem_map.mp he
  trivial

end Event

/-! ## The recorder -/

namespace Recorder

open Event (Balanced)

theorem foldl_record (es : List Event) (r : Recorder) :
    es.foldl record r = { es.foldl track r with events := r.events ++ es } := by
  have hevents : ∀ (r : Recorder) (e : Event) (before : List Event),
      { r with events := before }.track e = { r.track e with events := before } := by
    intro r e before
    unfold track close
    split
    · rfl
    · split <;> rfl
    · rfl
  have hfold : ∀ (es : List Event) (r : Recorder) (before : List Event),
      es.foldl record { r with events := before } = { es.foldl track r with events := before ++ es } := by
    intro es
    induction es with
    | nil => simp
    | cons e es ih =>
        intro r before
        rw [foldl_cons, record, hevents]
        simpa using ih (r.track e) (before ++ [e])
  exact hfold es r r.events

theorem track_plain (h : e.IsPlain) (r : Recorder) : r.track e = r := by
  obtain ⟨ho, hc⟩ := Event.isPlain_iff.mp h
  rw [track, ho, hc]

theorem track_open (h : e.opened? = some s) (r : Recorder) : r.track e = { r with opened := s :: r.opened } := by
  rw [track, h]

theorem track_close (ho : c.opened? = none) (hc : c.closed? = some s) (r : Recorder) : r.track c = r.close s := by
  rw [track, ho, hc]

theorem close_open (r : Recorder) (s : Section) : { r with opened := s :: r.opened }.close s = r := by
  simp [close]

theorem foldl_track_balanced {es} (h : Balanced es) (r : Recorder) : es.foldl track r = r := by
  induction h generalizing r with
  | nil => rfl
  | plain he _ ih => rw [foldl_cons, track_plain he, ih]
  | nest hp _ _ ihinner ihrest =>
      obtain ⟨s, hopen, hnone, hclose⟩ := hp.section
      rw [foldl_cons, track_open hopen, foldl_append, ihinner, foldl_cons,
        track_close hnone hclose, close_open, ihrest]

theorem violations_close (r : Recorder) (s : Section) : r.violations <+: (r.close s).violations := by
  unfold close
  split
  · exact prefix_rfl
  · exact prefix_append _ _

theorem violations_foldl_track (es : List Event) (r : Recorder) : r.violations <+: (es.foldl track r).violations := by
  induction es generalizing r with
  | nil => exact prefix_rfl
  | cons e es ih =>
      refine List.IsPrefix.trans ?_ (ih (r.track e))
      unfold track
      split
      · exact prefix_rfl
      · exact violations_close r _
      · exact prefix_rfl

inductive Closes : List Section → List Event → Prop
  | nil {es} : Balanced es → Closes [] es
  | cons {s ss c inner rest} : Balanced inner → c.opened? = none → c.closed? = some s → Closes ss rest →
    Closes (s :: ss) (inner ++ c :: rest)

theorem Closes.after {ss es before} (h : Closes ss es) (hb : Balanced before) : Closes ss (before ++ es) := by
  cases h with
  | nil h => exact .nil (hb.append h)
  | cons hinner ho hc hrest =>
      rw [← append_assoc]
      exact .cons (hb.append hinner) ho hc hrest

theorem closes_of_foldl_track {es r} (hv : (es.foldl track r).violations = [])
    (ho : (es.foldl track r).opened = []) : Closes r.opened es := by
  induction es generalizing r with
  | nil =>
      rw [foldl_nil] at ho
      rw [ho]
      exact .nil .nil
  | cons e es ih =>
      rw [foldl_cons] at hv ho
      have hrest := ih hv ho
      cases hopen : e.opened? with
      | some s =>
          rw [track_open hopen] at hrest
          -- The events go on to the end of `e`, and the rest ends what was open before.
          cases hrest with
          | cons hinner hnone hclose hrest =>
              have hpair := Balanced.wrap (Event.opened?_eq_some hopen hclose) hinner
              simpa using hrest.after hpair
      | none =>
          cases hclose : e.closed? with
          | none =>
              have hplain := Event.isPlain_iff.mpr ⟨hopen, hclose⟩
              rw [track_plain hplain] at hrest
              exact hrest.after (.plain hplain .nil)
          | some s =>
              rw [track_close hopen hclose] at hrest hv
              have hnone := prefix_nil.mp (hv ▸ violations_foldl_track es (r.close s))
              unfold close at hrest hnone
              split at hrest
              · rename_i hhead
                obtain ⟨tail, hr⟩ := head?_eq_some_iff.mp hhead
                rw [hr] at hrest ⊢
                have hcloses := Closes.cons .nil hopen hclose hrest
                exact hcloses
              · rename_i hhead
                rw [if_neg hhead] at hnone
                simp at hnone

theorem isWellNested_foldl_record (es : List Event) : (es.foldl record empty).isWellNested = true ↔ Balanced es := by
  rw [foldl_record, isWellNested, Bool.and_eq_true, List.isEmpty_iff, List.isEmpty_iff]
  constructor
  · rintro ⟨hviolations, hopened⟩
    have hcloses : Closes [] es := closes_of_foldl_track hviolations hopened
    cases hcloses with
    | nil h => exact h
  · intro h
    rw [foldl_track_balanced h]
    exact ⟨rfl, rfl⟩

end Recorder

/-- The events of every unit are balanced, and the recorder accepts what is balanced and nothing
else, whatever the events are. -/
theorem events_wellNested :
    (∀ (u : CompilationUnit) (includeSynthetic : Bool), Event.Balanced (Event.ofUnit u includeSynthetic)) ∧
      ∀ es : List Event, (es.foldl Recorder.record .empty).isWellNested = true ↔ Event.Balanced es :=
  ⟨Event.balanced_ofUnit, Recorder.isWellNested_foldl_record⟩

end JvmLift

import JvmLift.Proofs.Text.Grammar
import JvmLift.Type.Signature

/-!
# Signatures of fields are read exactly

Reading the signature of a field gives a type exactly for the written form of that type, and only
types that have one are given.
-/
namespace JvmLift

open List

/-! ## Written forms -/

def Primitive.code : Primitive → Char
  | .boolean => 'Z'
  | .byte => 'B'
  | .char => 'C'
  | .short => 'S'
  | .int => 'I'
  | .long => 'J'
  | .float => 'F'
  | .double => 'D'

namespace SourceType

def enclosed : SourceType → List Char → List Char
  | .classType .., text => 'L' :: text ++ [';']
  | _, text => text

def packagePart : Option String → List Char
  | none => []
  | some package => (InternalName.replaceChar '.' '/' package).toList ++ ['/']

mutual

/-- Written form of a type; for a class type, without what encloses it. -/
def bare : SourceType → List Char
  | .primitive p => [p.code]
  | .classType package name args none =>
      packagePart package ++ (name.toList ++ if args.isEmpty then [] else '<' :: writtenAll args ++ ['>'])
  | .classType _ name args (some owner) =>
      bare owner ++ '.' :: (name.toList ++ if args.isEmpty then [] else '<' :: writtenAll args ++ ['>'])
  | .array t => '[' :: enclosed t (bare t)
  | .wildcard none _ => ['*']
  | .wildcard (some t) upper => (if upper then '+' else '-') :: enclosed t (bare t)
  | .typeVar name => 'T' :: (name.toList ++ [';'])
  | .void => ['V']

def writtenAll : List SourceType → List Char
  | [] => []
  | t :: ts => enclosed t (bare t) ++ writtenAll ts

end

def written (t : SourceType) : List Char := enclosed t (bare t)

/-! ## Well-formed types -/

/-- A name that holds no character with a meaning in signatures. -/
def IsIdentifier (name : String) : Prop := name ≠ "" ∧ ∀ c ∈ name.toList, c ∉ ".;[/<>:".toList

def IsPackage : Option String → Prop
  | none => True
  | some package =>
      ∃ segments : List String, segments ≠ [] ∧ (∀ x ∈ segments, IsIdentifier x) ∧
        ".".intercalate segments = package

mutual

/-- Types that a signature can give to a field. The owner of a member class has its package. -/
inductive WellFormed : SourceType → Prop where
  | outer {package : Option String} {name : String} {args : List SourceType} (hp : IsPackage package)
      (hn : IsIdentifier name) (ha : ∀ t ∈ args, WellFormedArg t) :
      WellFormed (.classType package name args none)
  | member {package : Option String} {name name' : String} {args args' : List SourceType}
      {owner : Option SourceType} (ho : WellFormed (.classType package name' args' owner))
      (hn : IsIdentifier name) (ha : ∀ t ∈ args, WellFormedArg t) :
      WellFormed (.classType package name args (some (.classType package name' args' owner)))
  | typeVar {name : String} (hn : IsIdentifier name) : WellFormed (.typeVar name)
  | primitives (p : Primitive) : WellFormed (.array (.primitive p))
  | array {t : SourceType} (ht : WellFormed t) : WellFormed (.array t)

inductive WellFormedArg : SourceType → Prop where
  | unbounded : WellFormedArg (.wildcard none true)
  | bounded {t : SourceType} (ht : WellFormed t) (upper : Bool) : WellFormedArg (.wildcard (some t) upper)
  | type {t : SourceType} (ht : WellFormed t) : WellFormedArg t

end

end SourceType

namespace Signature

open Rule SourceType

/-! ## Rules over a rule for references -/

theorem isDelimiter_iff {c} : isDelimiter c = true ↔ c ∈ ".;[/<>:".toList := by
  simp [isDelimiter, or_assoc]

theorem reads_identifier :
    Reads identifier IsIdentifier String.toList (fun rest => ∀ c ∈ rest.head?, isDelimiter c = true) := by
  refine ((reads_run _).of_iff fun name => and_congr_right fun _ => ?_).mono fun rest h => ?_
  · refine forall₂_congr fun c _ => ?_
    rw [← isDelimiter_iff, Bool.not_eq_true', Bool.not_eq_true]
  · simpa using h

variable {rest : List Char} {t : SourceType}

theorem baseType_eq_some {s} :
    baseType s = some (t, rest) ↔ ∃ p : Primitive, t = .primitive p ∧ s = p.code :: rest := by
  constructor
  · intro h
    unfold baseType at h
    split at h <;> cases h
    all_goals exact ⟨_, rfl, rfl⟩
  · rintro ⟨p, rfl, rfl⟩
    cases p <;> rfl

theorem reads_baseType : Reads baseType (fun t => ∃ p : Primitive, t = .primitive p) written (fun _ => True) where
  sound h := by
    obtain ⟨p, rfl, rfl⟩ := baseType_eq_some.1 h
    exact ⟨⟨p, rfl⟩, rfl⟩
  complete := by
    rintro _ rest ⟨p, rfl⟩ -
    exact baseType_eq_some.2 ⟨p, rfl, rfl⟩

theorem writtenAll_eq (ts : List SourceType) : writtenAll ts = ts.flatMap written := by
  induction ts with
  | nil => rfl
  | cons t ts ih => rw [writtenAll, ih, flatMap_cons, written]

/-- What may stand between angle brackets, over some types. -/
def IsArgument (P : SourceType → Prop) (t : SourceType) : Prop :=
  ((t = .wildcard none true ∨ ∃ u, P u ∧ .wildcard (some u) true = t) ∨
    ∃ u, P u ∧ .wildcard (some u) false = t) ∨ P t

def writtenArgs (args : List SourceType) : List Char :=
  if args.isEmpty then [] else '<' :: writtenAll args ++ ['>']

def simple (x : String × List SourceType) : List Char := x.1.toList ++ writtenArgs x.2

def IsSimple (P : SourceType → Prop) (x : String × List SourceType) : Prop :=
  IsIdentifier x.1 ∧ ∀ t ∈ x.2, IsArgument P t

def Starts (P : SourceType → Prop) : Prop := ∀ t, P t → ∃ c ∈ ['L', 'T', '['], ∃ s, written t = c :: s

def Closes (rest : List Char) : Prop := ∃ c, (c = '.' ∨ c = ';') ∧ ∃ s, rest = c :: s

theorem writtenArgs_append (args : List SourceType) (h : Closes rest) :
    ∃ c, (c = '<' ∨ c = '.' ∨ c = ';') ∧ ∃ s, writtenArgs args ++ rest = c :: s := by
  obtain ⟨c, hc, s, rfl⟩ := h
  unfold writtenArgs
  split
  · exact ⟨c, .inr hc, s, rfl⟩
  · exact ⟨'<', .inl rfl, _, rfl⟩

theorem simpleClass_eq (reference : Rule SourceType) : simpleClass reference =
    both identifier ((Rule.optional (typeArguments reference)).map (Option.getD · [])) := by
  funext s
  simp only [simpleClass, both, Rule.map, Option.bind_eq_bind, Option.pure_def, Option.bind_map, Function.comp_def]

section

variable {reference : Rule SourceType} {P : SourceType → Prop}
  (h : Reads reference P written (fun _ => True)) (hb : Starts P)

include hb in
theorem written_argument (ht : IsArgument P t) : ∃ c ∈ ['*', '+', '-', 'L', 'T', '['], ∃ s, written t = c :: s := by
  rcases ht with ((rfl | ⟨u, -, rfl⟩) | ⟨u, -, rfl⟩) | ht
  · exact ⟨'*', by simp, _, rfl⟩
  · exact ⟨'+', by simp, _, rfl⟩
  · exact ⟨'-', by simp, _, rfl⟩
  · obtain ⟨c, hc, s, hs⟩ := hb t ht
    exact ⟨c, by simp_all, s, hs⟩

include h hb

theorem reads_typeArgument : Reads (typeArgument reference) (IsArgument P) written (fun _ => True) := by
  have hall : Reads ((Rule.char '*').map fun _ => SourceType.wildcard none true)
      (· = .wildcard none true) written (fun _ => True) := by
    refine ⟨fun hs => ?_, ?_⟩
    · obtain ⟨_, hc, rfl⟩ := map_eq_some.1 hs
      exact ⟨rfl, char_eq_some.1 hc⟩
    · rintro _ rest rfl -
      rfl
  have hbound (c : Char) (upper : Bool) (hc : c = if upper then '+' else '-') :
      Reads ((Rule.after c reference).map fun t => SourceType.wildcard (some t) upper)
        (fun t => ∃ u, P u ∧ .wildcard (some u) upper = t) written (fun _ => True) :=
    (h.after c).map fun t _ => by rw [hc]; rfl
  refine ((hall.orElse (hbound '+' true rfl) ?_).orElse (hbound '-' false rfl) ?_).orElse h ?_
  · rintro _ rest ⟨u, -, rfl⟩
    rfl
  · rintro _ rest ⟨u, -, rfl⟩
    rfl
  · intro t rest ht
    obtain ⟨c, hc, s, hs⟩ := hb t ht
    rw [hs]
    simp only [mem_cons, not_mem_nil, or_false] at hc
    rcases hc with rfl | rfl | rfl <;> rfl

theorem reads_typeArguments : Reads (typeArguments reference) (fun ts => ts ≠ [] ∧ ∀ t ∈ ts, IsArgument P t)
    (fun ts => '<' :: (ts.flatMap written ++ ['>'])) (fun _ => True) := by
  have harg := reads_typeArgument h hb
  refine ((harg.many1 (fun _ _ _ => trivial) fun t ht => ?_).before fun rest => ⟨trivial, ?_⟩).after '<'
  · obtain ⟨c, -, s, hs⟩ := written_argument hb ht
    simp [hs]
  · exact harg.refuses (fun t ht => written_argument hb ht) (by decide) rest

theorem reads_simpleClass : Reads (simpleClass reference) (IsSimple P) simple Closes := by
  have hargs : Reads ((Rule.optional (typeArguments reference)).map (Option.getD · []))
      (fun ts => ∀ t ∈ ts, IsArgument P t) writtenArgs Closes := by
    refine (((reads_typeArguments h hb).optional.map fun o ho => ?_).of_iff fun ts => ?_).mono ?_
    · cases o with
      | none => rfl
      | some ts => simp [writtenArgs, (ho ts rfl).1, writtenAll_eq]
    · constructor
      · rintro ⟨o, ho, rfl⟩ t ht
        cases o with
        | none => cases ht
        | some ts => exact (ho ts rfl).2 t ht
      · intro hts
        cases ts with
        | nil => exact ⟨none, by simp, rfl⟩
        | cons t ts => exact ⟨some (t :: ts), by simpa using hts, rfl⟩
    · rintro _ ⟨c, hc, s, rfl⟩
      refine ⟨trivial, (reads_typeArguments h hb).refuses
        (fun ts _ => ⟨'<', mem_singleton_self _, _, rfl⟩) ?_ s⟩
      rcases hc with rfl | rfl <;> decide
  rw [simpleClass_eq]
  refine reads_identifier.both hargs fun ts rest _ hrest => ?_
  obtain ⟨c, hc, s, hs⟩ := writtenArgs_append ts hrest
  rw [hs]
  rcases hc with rfl | rfl | rfl <;> simp [isDelimiter]

end

/-! ## Class types -/

abbrev Parts := List String × (String × List SourceType) × List (String × List SourceType)

def Parts.package (z : Parts) : Option String :=
  if z.1.isEmpty then none else some (".".intercalate z.1)

def Parts.toType (z : Parts) : SourceType :=
  z.2.2.foldl (fun owner m => .classType z.package m.1 m.2 (some owner)) (.classType z.package z.2.1.1 z.2.1.2 none)

def IsParts (P : SourceType → Prop) (z : Parts) : Prop :=
  (∀ x ∈ z.1, IsIdentifier x) ∧ IsSimple P z.2.1 ∧ ∀ m ∈ z.2.2, IsSimple P m

theorem bare_foldl (package : Option String) (members : List (String × List SourceType)) (t : SourceType) :
    bare (members.foldl (fun owner m => .classType package m.1 m.2 (some owner)) t) =
      bare t ++ members.flatMap fun m => '.' :: simple m := by
  induction members generalizing t with
  | nil => simp
  | cons m members ih =>
      rw [foldl_cons, ih, bare, append_assoc]
      rfl

theorem toType_eq (z : Parts) : ∃ name args owner, z.toType = .classType z.package name args owner := by
  unfold Parts.toType
  generalize z.package = package, z.2.1.1 = name, z.2.1.2 = args, (none : Option SourceType) = owner
  induction z.2.2 generalizing name args owner with
  | nil => exact ⟨name, args, owner, rfl⟩
  | cons m members ih => exact ih m.1 m.2 _

variable {z : Parts}

theorem packagePart_package (hz : ∀ x ∈ z.1, IsIdentifier x) :
    packagePart z.package = z.1.flatMap fun x => x.toList ++ ['/'] := by
  obtain ⟨segments, outer⟩ := z
  have hslash : ∀ x ∈ segments, x.toList.map (fun c => if c = '.' then '/' else c) = x.toList := by
    refine fun x hx => map_congr_left (fun c hc => if_neg ?_) |>.trans (List.map_id _)
    rintro rfl
    exact (hz x hx).2 _ hc (by simp)
  cases segments with
  | nil => rfl
  | cons x xs =>
      simp only [Parts.package, packagePart,
        InternalName.replaceChar]
      clear hz
      induction xs generalizing x with
      | nil => simpa using hslash
      | cons y ys ih =>
          obtain ⟨hx, hys⟩ := forall_mem_cons.1 hslash
          simp [hx, ← ih y hys]

variable {P : SourceType → Prop}

theorem written_toType (hz : IsParts P z) : written z.toType = 'L' :: (z.1.flatMap (fun x => x.toList ++ ['/']) ++
      (simple z.2.1 ++ z.2.2.flatMap fun m => '.' :: simple m) ++ [';']) := by
  have hbare : bare z.toType = packagePart z.package ++ simple z.2.1 ++ z.2.2.flatMap fun m => '.' :: simple m :=
    bare_foldl ..
  obtain ⟨name, args, owner, heq⟩ := toType_eq z
  rw [written, hbare, heq, enclosed, packagePart_package hz.1]
  simp

theorem classType_eq (reference : Rule SourceType) : classType reference = ((((many (identifier.before '/')).both
      ((simpleClass reference).both (many (Rule.after '.' (simpleClass reference))))).before ';').after 'L').map
        Parts.toType := by
  funext s
  simp only [both, Rule.map, bind, Rule.before, Rule.after, Function.comp_def, Option.map_bind,
    Option.bind_assoc]
  rfl

theorem segment_refuses {name} (hn : IsIdentifier name) (args : List SourceType) (h : Closes rest) :
    identifier.before '/' (name.toList ++ (writtenArgs args ++ rest)) = none := by
  obtain ⟨c, hc, s, hs⟩ := writtenArgs_append args h
  refine Option.eq_none_iff_forall_ne_some.2 fun r hr => ?_
  have hread : identifier (name.toList ++ c :: s) = some (name, c :: s) :=
    reads_identifier.complete hn (by rcases hc with rfl | rfl | rfl <;> simp [isDelimiter])
  have hslash := before_eq_some.1 hr
  rw [hs, hread, Option.some.injEq, Prod.mk.injEq, List.cons.injEq] at hslash
  rcases hc with rfl | rfl | rfl <;> exact absurd hslash.2.1 (by decide)

theorem reads_classType {reference} (h : Reads reference P written (fun _ => True)) (hb : Starts P) :
    Reads (classType reference) (fun t => ∃ z, IsParts P z ∧ Parts.toType z = t) written (fun _ => True) := by
  have hsimple := reads_simpleClass h hb
  have hmembers := (hsimple.after '.').many (fun _ _ _ => ⟨'.', .inl rfl, _, rfl⟩) (by simp)
  have hsegments := (reads_identifier.before (c := '/') fun rest => by simp [isDelimiter]).many
    (fun _ _ _ => trivial) (by simp)
  have hcloses (ms : List (String × List SourceType)) {rest : List Char} (hrest : Closes rest) :
      Closes (ms.flatMap (fun m => '.' :: simple m) ++ rest) := by
    cases ms with
    | nil => exact hrest
    | cons m ms => exact ⟨'.', .inl rfl, _, rfl⟩
  have hclasses := hsimple.both hmembers fun ms rest _ hrest => hcloses ms hrest.1
  rw [classType_eq]
  refine (((hsegments.both hclasses fun z rest hz hrest => ⟨trivial, ?_⟩).before fun rest => ?_).after 'L').map
    fun z hz => written_toType hz
  · rw [simple, append_assoc, append_assoc]
    exact segment_refuses hz.1.1 _ (hcloses z.2 hrest.1)
  · exact ⟨⟨';', .inr rfl, _, rfl⟩, rfl⟩

/-! ## References -/

def Within : Nat → SourceType → Prop
  | 0, _ => False
  | n + 1, t => (∃ z, IsParts (Within n) z ∧ z.toType = t) ∨ (∃ name, IsIdentifier name ∧ .typeVar name = t) ∨
    ∃ u, ((∃ p : Primitive, u = .primitive p) ∨ Within n u) ∧ .array u = t

theorem starts_within (n : Nat) : Starts (Within n) := by
  intro t ht
  cases n with
  | zero => cases ht
  | succ n =>
      rcases ht with ⟨z, hz, rfl⟩ | ⟨name, -, rfl⟩ | ⟨u, -, rfl⟩
      · exact ⟨'L', by simp, _, written_toType hz⟩
      · exact ⟨'T', by simp, _, rfl⟩
      · exact ⟨'[', by simp, _, rfl⟩

theorem reads_referenceUpTo (n : Nat) : Reads (referenceUpTo n) (Within n) written (fun _ => True) := by
  induction n with
  | zero => exact ⟨fun hs => (by cases hs), fun hx => (by cases hx)⟩
  | succ n ih =>
      have hvar : Reads typeVariable (fun t => ∃ name, IsIdentifier name ∧ .typeVar name = t) written (fun _ => True) :=
        ((reads_identifier.before fun rest => by simp [isDelimiter]).after 'T').map fun _ _ => rfl
      have harray : Reads ((Rule.after '[' (baseType.orElse (referenceUpTo n))).map .array)
          (fun t => ∃ u, ((∃ p : Primitive, u = .primitive p) ∨ Within n u) ∧ .array u = t) written (fun _ => True) := by
        refine ((reads_baseType.orElse ih fun t rest ht => ?_).after '[').map fun _ _ => rfl
        obtain ⟨c, hc, s, hs⟩ := starts_within n t ht
        rw [hs]
        simp only [mem_cons, not_mem_nil, or_false] at hc
        rcases hc with rfl | rfl | rfl <;> rfl
      refine (reads_classType ih (starts_within n)).orElse (hvar.orElse harray ?_) ?_
      · rintro _ rest ⟨u, -, rfl⟩
        rfl
      · rintro _ rest (⟨name, -, rfl⟩ | ⟨u, -, rfl⟩) <;> rfl

/-! ## Well-formed types are those that are read -/

theorem isPackage_package (hz : ∀ x ∈ z.1, IsIdentifier x) : IsPackage z.package := by
  unfold Parts.package
  split
  · trivial
  · next hne => exact ⟨z.1, by simpa using hne, hz, rfl⟩

variable {args : List SourceType} {package : Option String}

theorem wellFormed_foldl {members : List (String × List SourceType)}
    (hm : ∀ m ∈ members, IsIdentifier m.1 ∧ ∀ t ∈ m.2, WellFormedArg t) {name owner}
    (ht : WellFormed (.classType package name args owner)) :
    WellFormed (members.foldl (fun owner m => .classType package m.1 m.2 (some owner))
      (.classType package name args owner)) := by
  induction members generalizing name args owner with
  | nil => exact ht
  | cons m members ih =>
      obtain ⟨hm, hms⟩ := forall_mem_cons.1 hm
      exact ih hms (.member ht hm.1 hm.2)

theorem wellFormedArg_of_isArgument (hP : ∀ t, P t → WellFormed t) (ht : IsArgument P t) : WellFormedArg t := by
  rcases ht with ((rfl | ⟨u, hu, rfl⟩) | ⟨u, hu, rfl⟩) | ht
  · exact .unbounded
  · exact .bounded (hP u hu) true
  · exact .bounded (hP u hu) false
  · exact .type (hP t ht)

theorem wellFormed_of_within {n} (h : Within n t) : WellFormed t := by
  induction n generalizing t with
  | zero => cases h
  | succ n ih =>
      have harg {t : SourceType} : IsArgument (Within n) t → WellFormedArg t := wellFormedArg_of_isArgument fun t => ih
      rcases h with ⟨z, ⟨hz, hx, hm⟩, rfl⟩ | ⟨name, hname, rfl⟩ | ⟨u, ⟨p, rfl⟩ | hu, rfl⟩
      · exact wellFormed_foldl (fun m hmem => ⟨(hm m hmem).1, fun t ht => harg ((hm m hmem).2 t ht)⟩)
          (.outer (isPackage_package hz) hx.1 fun t ht => harg (hx.2 t ht))
      · exact .typeVar hname
      · exact .primitives p
      · exact .array (ih hu)

theorem exists_segments (h : IsPackage package) :
    ∃ segments : List String, (∀ x ∈ segments, IsIdentifier x) ∧ ∀ outer, Parts.package (segments, outer) = package := by
  cases package with
  | none => exact ⟨[], by simp, fun _ => rfl⟩
  | some package =>
      obtain ⟨segments, hne, hids, rfl⟩ := h
      exact ⟨segments, hids, fun _ => by simp [Parts.package, hne]⟩

theorem length_lt_writtenArgs (h : t ∈ args) : (written t).length < (writtenArgs args).length := by
  have hle := (sublist_flatten_of_mem (mem_map_of_mem (f := written) h)).length_le
  rw [← flatMap_def, ← writtenAll_eq] at hle
  rw [writtenArgs, if_neg (by simpa using ne_nil_of_mem h)]
  simp
  omega

theorem length_written_class (package : Option String) (name : String) (args : List SourceType)
    (owner : Option SourceType) :
    (writtenArgs args).length < (written (.classType package name args owner)).length := by
  cases owner <;> simp [written, enclosed, bare, writtenArgs] <;> omega

theorem exists_level {k n} (hk : (writtenArgs args).length < k) (hn : k ≤ n) :
    ∃ m, n = m + 1 ∧ ∀ t ∈ args, (written t).length ≤ m := by
  refine ⟨n - 1, by omega, fun t ht => ?_⟩
  have := length_lt_writtenArgs ht
  omega

theorem within_of_wellFormed (h : WellFormed t) : ∀ n, (written t).length ≤ n → Within n t := by
  refine @WellFormed.rec (fun t _ => ∀ n, (written t).length ≤ n → Within n t)
    (fun t _ => ∀ n, (written t).length ≤ n → IsArgument (Within n) t) ?_ ?_ ?_ ?_ ?_ ?_ ?_ ?_ t h
  · intro package name args hp hn _ iha n hlen
    obtain ⟨n, rfl, hargs⟩ := exists_level (length_written_class ..) hlen
    obtain ⟨segments, hids, hpackage⟩ := exists_segments hp
    refine .inl ⟨(segments, (name, args), []), ⟨hids, ⟨hn, fun t ht => iha t ht n (hargs t ht)⟩, by simp⟩, ?_⟩
    simp [Parts.toType, hpackage]
  · intro package name name' args args' owner _ hn _ iho iha n hlen
    obtain ⟨n, rfl, hargs⟩ := exists_level (length_written_class ..) hlen
    have howner : (written (.classType package name' args' owner)).length ≤ n + 1 := by
      refine Nat.le_trans ?_ hlen
      simp [written, enclosed, bare]
    rcases iho (n + 1) howner with ⟨z, ⟨hz, hx, hm⟩, heq⟩ | ⟨_, -, heq⟩ | ⟨_, -, heq⟩
    · obtain ⟨_, _, _, hz'⟩ := toType_eq z
      obtain rfl : z.package = package := by simp_all
      refine .inl ⟨(z.1, z.2.1, z.2.2 ++ [(name, args)]), ⟨hz, hx, ?_⟩, ?_⟩
      · rw [forall_mem_append, forall_mem_singleton]
        exact ⟨hm, hn, fun t ht => iha t ht n (hargs t ht)⟩
      · rw [← heq, Parts.toType, foldl_append]
        rfl
    · cases heq
    · cases heq
  · intro name hn n hlen
    cases n with
    | zero => cases hlen
    | succ n => exact .inr (.inl ⟨name, hn, rfl⟩)
  · intro p n hlen
    cases n with
    | zero => cases hlen
    | succ n => exact .inr (.inr ⟨_, .inl ⟨p, rfl⟩, rfl⟩)
  · intro t _ iht n hlen
    cases n with
    | zero => cases hlen
    | succ n => exact .inr (.inr ⟨t, .inr (iht n (Nat.le_of_succ_le_succ hlen)), rfl⟩)
  · exact fun n _ => .inl (.inl (.inl rfl))
  · intro t _ upper iht n hlen
    have ht := iht n (Nat.le_of_succ_le hlen)
    cases upper with
    | true => exact .inl (.inl (.inr ⟨t, ht, rfl⟩))
    | false => exact .inl (.inr ⟨t, ht, rfl⟩)
  · exact fun _ iht n hlen => .inr (iht n hlen)

theorem reads_referenceType : Reads referenceType WellFormed written (fun _ => True) where
  sound hs := ((reads_referenceUpTo _).sound hs).imp_left wellFormed_of_within
  complete ht _ := (reads_referenceUpTo _).complete (within_of_wellFormed ht _ (by simp)) trivial

theorem parseField_inverts_written (text : String) (t : SourceType) :
    parseField? text = some t ↔ t.WellFormed ∧ String.ofList t.written = text :=
  reads_referenceType.whole trivial

end Signature

end JvmLift

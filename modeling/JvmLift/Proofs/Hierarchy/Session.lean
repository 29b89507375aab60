import JvmLift.Proofs.Hierarchy.History

/-!
# Sessions

A session remembers what it has looked up on its class path. It answers every question as a resolver
does that looks classes up afresh, and its gaps are exactly the names that were looked up and could not
be found.
-/
namespace JvmLift

open List

variable {α ρ : Type} {path : ClassPath} {current : Option ClassFile} {s : Session}
  {asked : List String} {name : String}

/-! ## Class paths and resolvers -/

theorem ClassPath.load?_eq_none_iff : path.load? name = none ↔ path.bytes? name = none ∨
      ∃ bytes fault, path.bytes? name = some bytes ∧ ClassFile.parse bytes = .error fault := by
  unfold ClassPath.load?
  cases path.bytes? name with
  | none => simp
  | some bytes => cases hparse : ClassFile.parse bytes <;> simp [Except.toOption, hparse]

def ownName? (current : Option ClassFile) : Option String := current.bind (·.thisName.toOption)

theorem ownName?_eq (current : Option ClassFile) : ownName? current = (current.bind (·.named?)).map (·.1) := by
  cases current with
  | none => rfl
  | some c => cases hname : c.thisName.toOption <;> simp [ownName?, ClassFile.named?, hname]

namespace Resolver

theorem lookup_loaded_ofPath (path : ClassPath) (current : Option ClassFile) (name : String) :
    ((ofPath path current).loaded.lookup name).join = path.load? name := by
  simp only [ofPath, ClassPath.load?, ClassPath.bytes?]
  induction path.classes with
  | nil => rfl
  | cons entry rest ih =>
      rw [map_cons, lookup_cons, lookup_cons]
      split
      · rfl
      · exact ih

theorem find_ofPath_of_own {c} (h : current.bind (·.named?) = some (name, c)) :
    (ofPath path current).find? name = some c := by
  simp [find?, ofPath, h]

theorem find_ofPath_of_not_own (h : ownName? current ≠ some name) :
    (ofPath path current).find? name = path.load? name := by
  rw [← lookup_loaded_ofPath path current]
  rw [ownName?_eq] at h
  unfold find?
  split
  · rename_i own c hown
    rw [show current.bind (·.named?) = some (own, c) from hown] at h
    exact if_neg fun heq => h (congrArg some heq)
  · rfl

theorem bounded_find_ofPath (path : ClassPath) (current : Option ClassFile) :
    Inquiry.Bounded (ofPath path current).find? path.limit := by
  have hsize : (ofPath path current).size = path.limit := by simp [size, ofPath, ClassPath.limit]
  exact hsize ▸ bounded_find _

end Resolver

/-! ## What a session recalls -/

namespace Session

/-- What a session knows once the names `asked` have been looked up in it: of all but the current
class, what the class path has. -/
structure Recalls (path : ClassPath) (current : Option ClassFile) (s : Session) (asked : List String) :
    Prop where
  path_eq : s.path = path
  current_eq : s.current = current.bind (·.named?)
  known : ∀ name, s.known[name]? =
    if name ∈ asked ∧ ownName? current ≠ some name then some (path.load? name) else none
  missed : ∀ name, name ∈ s.missed ↔
    name ∈ asked ∧ ownName? current ≠ some name ∧ path.load? name = none

theorem recalls_ofPath (path : ClassPath) (current : Option ClassFile) :
    Recalls path current (ofPath path current) [] where
  path_eq := rfl
  current_eq := rfl
  known := by simp [ofPath]
  missed := by simp [ofPath]

theorem Recalls.again (h : Recalls path current s asked) (hname : name ∈ asked ∨ ownName? current = some name) :
    Recalls path current s (asked ++ [name]) := by
  have hmem (n : String) (hn : ownName? current ≠ some n) : n ∈ asked ++ [name] ↔ n ∈ asked := by
    rw [mem_append, mem_singleton, or_iff_left_iff_imp]
    rintro rfl
    exact hname.resolve_right hn
  refine ⟨h.path_eq, h.current_eq, fun n => ?_, fun n => ?_⟩
  · rw [h.known]
    exact ite_cond_congr (propext (and_congr_left fun hn => (hmem n hn).symm))
  · rw [h.missed]
    exact and_congr_left fun hn => (hmem n hn.1).symm

theorem load_of_known {found} (h : s.known[name]? = some found) : s.load name = (found, s) := by
  rw [load, h]

theorem load_of_unknown (h : s.known[name]? = none) : s.load name = (s.path.load? name, { s with
      known := s.known.insert name (s.path.load? name)
      missed := if (s.path.load? name).isNone then s.missed.insert name else s.missed }) := by
  rw [load, h]

variable (h : Recalls path current s asked)

include h

theorem Recalls.load (hname : ownName? current ≠ some name) :
    (s.load name).1 = path.load? name ∧ Recalls path current (s.load name).2 (asked ++ [name]) := by
  by_cases hasked : name ∈ asked
  · rw [load_of_known (by rw [h.known, if_pos ⟨hasked, hname⟩])]
    exact ⟨rfl, h.again (.inl hasked)⟩
  · rw [load_of_unknown (by rw [h.known, if_neg fun hc => hasked hc.1]), h.path_eq]
    refine ⟨rfl, rfl, h.current_eq, fun n => ?_, fun n => ?_⟩
    · rw [Std.TreeMap.getElem?_insert, h.known]
      grind
    · simp only [Option.isNone_iff_eq_none]
      split
      · rw [Std.TreeSet.mem_insert, h.missed]
        grind
      · rw [h.missed]
        grind

theorem Recalls.find (name : String) : (s.find name).1 = (Resolver.ofPath path current).find? name ∧
      Recalls path current (s.find name).2 (asked ++ [name]) := by
  by_cases hname : ownName? current = some name
  · obtain ⟨⟨own, c⟩, hown, rfl⟩ := Option.map_eq_some_iff.mp (ownName?_eq current ▸ hname)
    rw [Resolver.find_ofPath_of_own hown, Session.find, h.current_eq, hown]
    dsimp only
    rw [if_pos rfl]
    exact ⟨rfl, h.again (.inr hname)⟩
  · have hload : s.find name = s.load name := by
      unfold Session.find
      rw [h.current_eq]
      cases hown : current.bind (·.named?) with
      | none => rfl
      | some own =>
          rw [ownName?_eq, hown] at hname
          exact if_neg fun heq => hname (congrArg some heq)
    rw [hload, Resolver.find_ofPath_of_not_own hname]
    exact h.load hname

theorem Recalls.lookUp (names : List String) : Recalls path current (s.lookUp names) (asked ++ names) := by
  induction names generalizing s asked with
  | nil => simpa [Session.lookUp] using h
  | cons name names ih =>
      rw [append_cons]
      exact ih (h.find name).2

theorem Recalls.agrees : (s.resolver (Resolver.ofPath path current)).Agrees (Resolver.ofPath path current) := by
  have hknown (known : List (String × Option ClassFile)) (hk : ∀ entry ∈ known, entry.2 = path.load? entry.1)
      (name : String) : ((known ++ (Resolver.ofPath path current).loaded).lookup name).join = path.load? name := by
    induction known with
    | nil => exact Resolver.lookup_loaded_ofPath path current name
    | cons entry known ih =>
        rw [cons_append, lookup_cons]
        split
        · rename_i heq
          rw [Option.join_some, hk entry mem_cons_self, eq_of_beq heq]
        · exact ih fun entry he => hk entry (mem_cons_of_mem _ he)
  have hloaded := hknown s.known.toList fun entry he => by
    have hentry := Std.TreeMap.mem_toList_iff_getElem?_eq_some.mp he
    rw [h.known] at hentry
    split at hentry
    · exact (Option.some.inj hentry).symm
    · cases hentry
  intro name
  simp only [Resolver.find?, Session.resolver, hloaded, Resolver.lookup_loaded_ofPath]

theorem Recalls.perform (q : Inquiry α) : (perform q s).1 = (Resolver.ofPath path current).answer q ∧
      Recalls path current (perform q s).2 (asked ++ q.lookups (Resolver.ofPath path current).find?) := by
  induction q generalizing s asked with
  | done a => exact ⟨rfl, by simpa [Session.perform, Inquiry.lookups] using h⟩
  | look name next ih =>
      obtain ⟨hfound, hrecalls⟩ := h.find name
      rw [Inquiry.lookups, append_cons]
      rw [Resolver.answer, Inquiry.answer, ← hfound]
      exact ih _ hrecalls

theorem Recalls.askAll (qs : List (Query ρ)) :
    (s.askAll qs).1 = qs.map (fun q => (Resolver.ofPath path current).answer (q.inquiry path.limit)) ∧
      Recalls path current (s.askAll qs).2 (asked ++ qs.flatMap fun q =>
        (q.inquiry path.limit).lookups (Resolver.ofPath path current).find?) := by
  induction qs generalizing s asked with
  | nil => exact ⟨rfl, by simpa [Session.askAll] using h⟩
  | cons q qs ih =>
      obtain ⟨hanswer, hrecalls⟩ := h.perform (q.inquiry path.limit)
      obtain ⟨hanswers, hrest⟩ := ih hrecalls
      have hask : s.ask q = Session.perform (q.inquiry path.limit) s := by rw [Session.ask, h.path_eq]
      rw [Session.askAll, hask, flatMap_cons, ← append_assoc]
      exact ⟨congr (congrArg List.cons hanswer) hanswers, hrest⟩

end Session

/-! ## Questions in sequence -/

/-- A question looks a class up, under any bound that is large enough. -/
def Query.LooksUp (classes : String → Option ClassFile) (q : Query ρ) (name : String) : Prop :=
  ∃ n, ∀ limit, n ≤ limit → name ∈ (q.inquiry limit).lookups classes

theorem Query.looksUp_iff {classes limit} (h : Inquiry.Bounded classes limit) (q : Query ρ) :
    q.LooksUp classes name ↔ name ∈ (q.inquiry limit).lookups classes := by
  have hlookups {limit' : Nat} (hle : limit ≤ limit') :
      (q.inquiry limit).lookups classes = (q.inquiry limit').lookups classes :=
    (q.steady_inquiry classes limit limit' h hle).lookups
  constructor
  · rintro ⟨n, hn⟩
    rw [hlookups (Nat.le_max_left limit n)]
    exact hn _ (Nat.le_max_right limit n)
  · exact fun hname => ⟨limit, fun limit' hle => hlookups hle ▸ hname⟩

theorem Session.pairwise_gaps (s : Session) : s.gaps.Pairwise (· < ·) :=
  (Std.TreeSet.ordered_toList (t := s.missed)).imp fun h => compareOfLessAndEq_eq_lt.mp h

/-- Questions asked one after the other are each answered as if nothing had been asked before, and
the gaps are then in ascending order the names, other than that of the current class, that some
question looked up and the class path lacks or has with a class file that cannot be read. -/
theorem Session.askAll_ofPath (path : ClassPath) (current : Option ClassFile) (qs : List (Query ρ)) :
    ((ofPath path current).askAll qs).1 = qs.map (fun q => ((ofPath path current).ask q).1) ∧
    ((ofPath path current).askAll qs).2.gaps.Pairwise (· < ·) ∧
    ∀ name, name ∈ ((ofPath path current).askAll qs).2.gaps ↔
      ownName? current ≠ some name ∧
      (∃ q ∈ qs, q.LooksUp (Resolver.ofPath path current).find? name) ∧
      (path.bytes? name = none ∨
        ∃ bytes fault, path.bytes? name = some bytes ∧ ClassFile.parse bytes = .error fault) := by
  obtain ⟨hanswers, hrecalls⟩ := (recalls_ofPath path current).askAll qs
  refine ⟨?_, pairwise_gaps _, fun name => ?_⟩
  · rw [hanswers]
    exact List.map_congr_left fun q _ => ((recalls_ofPath path current).perform _).1.symm
  · have hlooksUp : (∃ q ∈ qs, q.LooksUp (Resolver.ofPath path current).find? name) ↔
        name ∈ [] ++ qs.flatMap fun q =>
          (q.inquiry path.limit).lookups (Resolver.ofPath path current).find? := by
      simp only [Query.looksUp_iff (Resolver.bounded_find_ofPath path current), List.nil_append,
        List.mem_flatMap]
    rw [hlooksUp, ← ClassPath.load?_eq_none_iff, and_left_comm, ← hrecalls.missed]
    exact Std.TreeSet.mem_toList

end JvmLift

import JvmLift.Proofs.Type.Descriptor
import JvmLift.Proofs.Type.Signature

/-!
# Erased types read as signatures

The descriptor of a reference is a signature as well. Read as one, it gives the source type of the erased
type, under the same class name.
-/
namespace JvmLift

open List

namespace InternalName

def IsSlashed (name : String) : Prop :=
  ∃ segments : List String, segments ≠ [] ∧ (∀ x ∈ segments, x ≠ "" ∧ ∀ c ∈ x.toList, c ∉ "/.[<>:".toList) ∧
    "/".intercalate segments = name

variable {c : Char} {s : List Char}

theorem span_reverse (h : c ∉ s) (rest : List Char) (hrest : ∀ d ∈ rest.head?, d = c) :
    (s.reverse ++ rest).span (· ≠ c) = (s.reverse, rest) := by
  have hall : ∀ d ∈ s.reverse, decide (d ≠ c) = true := fun d hd =>
    decide_eq_true fun heq => h (heq ▸ mem_reverse.mp hd)
  rw [span_eq_takeWhile_dropWhile, takeWhile_append_of_pos hall, dropWhile_append_of_pos hall]
  cases rest with
  | nil => simp
  | cons d rest => simp [hrest d rfl]

theorem splitLast_of_not_mem (h : c ∉ s) : splitLast c s = none := by
  have hspan := span_reverse h [] nofun
  rw [append_nil] at hspan
  rw [splitLast, hspan]

theorem splitLast_append (h : c ∉ s) (init : List Char) : splitLast c (init ++ c :: s) = some (init, s) := by
  have hspan := span_reverse h (c :: init.reverse) (by simp)
  rw [splitLast, reverse_append, reverse_cons, append_assoc, singleton_append, hspan]
  simp

theorem toList_slashed (init : List String) (last : String) :
    ("/".intercalate (init ++ [last])).toList = init.flatMap (fun x => x.toList ++ ['/']) ++ last.toList := by
  induction init with
  | nil => simp
  | cons x init ih => cases init <;> simp_all

end InternalName

namespace SourceType

open InternalName Signature

variable {init : List String} {last : String}

section

variable (h : ∀ x ∈ init, IsIdentifier x)

include h

theorem toSource_package : toSource (replaceChar '.' '/' (".".intercalate init)) = ".".intercalate init := by
  have hslash : '/' ∉ (".".intercalate init).toList := by
    have hno : ∀ x ∈ init, '/' ∉ x.toList := fun x hx hc => (h x hx).2 _ hc (by simp)
    induction init with
    | nil => simp
    | cons x init ih => cases init <;> simp_all
  rw [← String.toList_inj, toSource, replaceChar, replaceChar, String.toList_ofList, String.toList_ofList, List.map_map]
  refine (map_congr_left fun c hc => ?_).trans (List.map_id _)
  have hne : c ≠ '/' := fun heq => hslash (heq ▸ hc)
  by_cases hdot : c = '.' <;> simp [hdot, hne]

theorem toList_packaged (last : String) : ("/".intercalate (init ++ [last])).toList =
      packagePart (Parts.package (init, (last, []), [])) ++ last.toList := by
  rw [toList_slashed, packagePart_package h]

theorem ofInternal_slashed (hlast : IsIdentifier last) :
    ofInternal ("/".intercalate (init ++ [last])) = Parts.toType (init, (last, []), []) := by
  have hlast : '/' ∉ last.toList := fun hc => hlast.2 _ hc (by simp)
  simp only [ofInternal, package?, InternalName.simple, toList_packaged h, Parts.toType, raw]
  cases init with
  | nil => simp [Parts.package, packagePart, splitLast_of_not_mem hlast]
  | cons x init => simp [Parts.package, packagePart, splitLast_append hlast, toSource_package h]

theorem internalName?_toType :
    (Parts.toType (init, (last, []), [])).internalName? = some ("/".intercalate (init ++ [last])) := by
  rw [← String.ofList_toList (s := "/".intercalate (init ++ [last])), toList_packaged h, Parts.toType]
  cases Parts.package (init, (last, []), []) <;> simp [internalName?, packagePart, String.append_assoc]

end

variable {t : ErasedType}

theorem ofErased_isField (ht : t.IsField) (hname : ∀ name ∈ t.className?, IsSlashed name) :
    ((∃ p, ofErased t = .primitive p) ∨ (ofErased t).WellFormed) ∧
      (ofErased t).written = Descriptor.written t ∧ (ofErased t).internalName? = t.className? := by
  induction t with
  | reference name =>
      obtain ⟨segments, hne, hids, rfl⟩ := hname _ rfl
      obtain ⟨init, last, rfl⟩ : ∃ init last, segments = init ++ [last] :=
        ⟨_, _, (dropLast_concat_getLast hne).symm⟩
      have hids : ∀ x ∈ init ++ [last], IsIdentifier x := by
        refine fun x hx => ⟨(hids x hx).1, fun c hc hspecial => ?_⟩
        have hsemi : c ≠ ';' := by
          rintro rfl
          refine ht.2 ?_
          rw [toList_slashed]
          simp only [mem_append, mem_singleton, mem_flatMap] at hx ⊢
          exact hx.imp (fun hx => ⟨x, hx, .inl hc⟩) fun hx => by rwa [← hx]
        have := (hids x hx).2 c hc
        simp_all
      have hinit : ∀ x ∈ init, IsIdentifier x := fun x hx => hids x (mem_append_left _ hx)
      have hlast : IsIdentifier last := hids last (by simp)
      have hparts : IsParts WellFormed (init, (last, []), []) := ⟨hinit, ⟨hlast, by simp⟩, by simp⟩
      rw [ofErased, ofInternal_slashed hinit hlast]
      refine ⟨.inr (.outer (isPackage_package hinit) hlast (by simp)), ?_, internalName?_toType hinit⟩
      rw [written_toType hparts, Descriptor.written_reference, toList_slashed]
      simp [Signature.simple, writtenArgs]
  | array t ih =>
      obtain ⟨hwell, hwritten, hinternal⟩ := ih ht hname
      refine ⟨.inr ?_, ?_, hinternal⟩
      · rcases hwell with ⟨p, hp⟩ | hwell
        · rw [ofErased, hp]
          exact .primitives p
        · exact .array hwell
      · rw [Descriptor.written_array, ← hwritten]
        rfl
  | void | null | unknown => cases ht
  | _ => exact ⟨.inl ⟨_, rfl⟩, rfl, rfl⟩

end SourceType

/-- A descriptor that names a class by its segments, or an array, is the signature of the same type. -/
theorem Signature.parseField_of_descriptor {d : String} {t : ErasedType} (hd : Descriptor.parseType? d = some t)
    (hreference : t.isReference = true ∨ ∃ u, t = .array u)
    (hname : ∀ name ∈ t.className?, InternalName.IsSlashed name) :
    parseField? d = some (.ofErased t) ∧ (SourceType.ofErased t).internalName? = t.className? := by
  obtain ⟨hfield, rfl⟩ := (Descriptor.reads_fieldType.whole trivial).1 hd
  obtain ⟨hwell, hwritten, hinternal⟩ := SourceType.ofErased_isField hfield hname
  refine ⟨(reads_referenceType.whole trivial).2 ⟨hwell.resolve_left ?_, by rw [hwritten]⟩, hinternal⟩
  rintro ⟨p, hp⟩
  obtain h | ⟨u, rfl⟩ := hreference
  · cases t with
    | reference name => cases hp
    | _ => cases h
  · cases hp

theorem Signature.parseField_nestedArray :
    Descriptor.parseType? "[[Lorg/x/Map$Entry;" = some (.array (.array (.reference "org/x/Map$Entry"))) ∧
      parseField? "[[Lorg/x/Map$Entry;" = some (.array (.array (.ofInternal "org/x/Map$Entry"))) ∧
      (SourceType.ofInternal "org/x/Map$Entry").internalName? = some "org/x/Map$Entry" := by
  have hd : Descriptor.parseType? "[[Lorg/x/Map$Entry;" = some (.array (.array (.reference "org/x/Map$Entry"))) := by
    decide +kernel
  refine ⟨hd, parseField_of_descriptor hd (.inr ⟨_, rfl⟩) ?_⟩
  rintro _ ⟨⟩
  exact ⟨["org", "x", "Map$Entry"], by decide, by simp, by decide⟩

end JvmLift

import JvmLift.Proofs.Text.Grammar
import JvmLift.Type.Descriptor

/-!
# Descriptors are read exactly

Reading a descriptor is the inverse of writing one: it gives a type exactly for the descriptors of
that type, and takes no other text.
-/
namespace JvmLift

/-- Types of fields and parameters: the primitives, classes whose name can be told from what comes
behind, and arrays of such. -/
def ErasedType.IsField : ErasedType → Prop
  | .reference name => name ≠ "" ∧ ';' ∉ name.toList
  | .array t => t.IsField
  | .void | .null | .unknown => False
  | _ => True

def MethodType.toDescriptor (m : MethodType) : String :=
  "(" ++ String.join (m.params.map (·.toDescriptor)) ++ ")" ++ m.result.toDescriptor

structure MethodType.IsMethod (m : MethodType) : Prop where
  params : ∀ t ∈ m.params, t.IsField
  result : m.result = .void ∨ m.result.IsField

namespace Descriptor

open Rule

def written (t : ErasedType) : List Char := t.toDescriptor.toList

theorem written_reference (name : String) : written (.reference name) = 'L' :: (name.toList ++ [';']) := by
  simp [written, ErasedType.toDescriptor]

theorem written_array (t : ErasedType) : written (.array t) = '[' :: written t := by
  simp [written, ErasedType.toDescriptor]

theorem reads_className : Reads ((run (· ≠ ';')).before ';') (fun name => (ErasedType.reference name).IsField)
      (fun name => name.toList ++ [';']) (fun _ => True) := by
  refine ((reads_run _).before (by simp)).of_iff fun name => and_congr_right fun _ => ?_
  simp only [decide_eq_true_eq]
  exact ⟨fun h hmem => h _ hmem rfl, fun h c hc heq => h (heq ▸ hc)⟩

variable {t : ErasedType}

theorem fieldType_sound {s rest} (h : fieldType s = some (t, rest)) : t.IsField ∧ s = written t ++ rest := by
  fun_induction fieldType s generalizing t rest with
  | case9 s =>
      obtain ⟨name, hname, rfl⟩ := map_eq_some.1 h
      obtain ⟨hfield, rfl⟩ := reads_className.sound hname
      exact ⟨hfield, by simp [written_reference]⟩
  | case10 s ih =>
      obtain ⟨⟨u, _⟩, hu, heq⟩ := Option.map_eq_some_iff.1 h
      cases heq
      obtain ⟨hfield, rfl⟩ := ih hu
      exact ⟨hfield, by rw [written_array]; rfl⟩
  | case11 => cases h
  | _ =>
      cases h
      exact ⟨trivial, rfl⟩

theorem fieldType_written (ht : t.IsField) (rest : List Char) : fieldType (written t ++ rest) = some (t, rest) := by
  induction t with
  | reference name =>
      rw [written_reference]
      exact map_eq_some.2 ⟨name, reads_className.complete ht trivial, rfl⟩
  | array t ih => rw [written_array, List.cons_append, fieldType, ih ht]; rfl
  | void | null | unknown => cases ht
  | _ => rfl

theorem reads_fieldType : Reads fieldType ErasedType.IsField written (fun _ => True) :=
  ⟨fieldType_sound, fun ht _ => fieldType_written ht _⟩

theorem written_ne_nil (ht : t.IsField) : written t ≠ [] := fun h => by
  have := fieldType_written ht []
  rw [h] at this
  cases this

theorem reads_resultType : Reads resultType (fun t => t = .void ∨ t.IsField) written (fun _ => True) := by
  refine Reads.orElse ⟨fun hs => ?_, ?_⟩ reads_fieldType fun t rest ht => ?_
  · obtain ⟨_, hc, rfl⟩ := map_eq_some.1 hs
    exact ⟨rfl, char_eq_some.1 hc⟩
  · rintro _ rest rfl -
    rfl
  · cases t with
    | void | null | unknown => cases ht
    | _ => simp [written, ErasedType.toDescriptor, map, char]

theorem methodType_eq : methodType =
    (both (((many fieldType).before ')').after '(') resultType).map fun z => ⟨z.1, z.2⟩ := by
  funext s
  simp only [methodType, Option.pure_def, Option.bind_eq_bind, map, both, Option.map_bind, Function.comp_def,
    Option.map_some]

theorem toDescriptor_toList (m : MethodType) :
    m.toDescriptor.toList = '(' :: (m.params.flatMap written ++ [')']) ++ written m.result := by
  change _ = '(' :: (m.params.flatMap (·.toDescriptor.toList) ++ [')']) ++ m.result.toDescriptor.toList
  simp [MethodType.toDescriptor, List.flatMap_map]

theorem reads_methodType : Reads methodType MethodType.IsMethod (fun m => m.toDescriptor.toList) (fun _ => True) := by
  have hparams := ((reads_fieldType.many (by simp) fun _ => written_ne_nil).before
    (c := ')') (fun _ => ⟨trivial, rfl⟩)).after '('
  rw [methodType_eq]
  refine ((hparams.both reads_resultType fun _ _ _ _ => trivial).map fun z _ =>
    toDescriptor_toList _).of_iff fun m => ⟨?_, fun h => ⟨(m.params, m.result), ⟨h.1, h.2⟩, rfl⟩⟩
  rintro ⟨z, hz, rfl⟩
  exact ⟨hz.1, hz.2⟩

theorem parse_inverts_descriptor (d : String) : (∀ t, parseType? d = some t ↔ t.IsField ∧ t.toDescriptor = d) ∧
      ∀ m, parseMethod? d = some m ↔ m.IsMethod ∧ m.toDescriptor = d := by
  refine ⟨fun t => ?_, fun m => ?_⟩
  · rw [parseType?, reads_fieldType.whole trivial, written, String.ofList_toList]
  · rw [parseMethod?, reads_methodType.whole trivial, String.ofList_toList]

end Descriptor

end JvmLift

import JvmLift.Proofs.ClassFile.Write

/-!
# Bodies of code and annotation attributes

An attribute is interpreted exactly if its body is the written form of code or of annotations. If only a part of the
body is one, the length is wrong, and the body is malformed if none is.
-/
namespace JvmLift

open Bytes List Reader

/-! ## Written forms -/

def HandlerRow.write (r : HandlerRow) : Bytes :=
  be16 r.startPc ++ (be16 r.endPc ++ (be16 r.handlerPc ++ be16 r.catchType))

namespace Code

def write (c : Code) : Bytes :=
  be16 c.maxStack ++ (be16 c.maxLocals ++ (be32 (UInt32.ofNat c.code.length) ++ (c.code ++
    (writeRows HandlerRow.write c.handlers ++ writeRows Attribute.write c.attributes))))

structure Fits (c : Code) : Prop where
  code : c.code.length < 2 ^ 32
  handlers : c.handlers.length < 2 ^ 16
  attributes : c.attributes.length < 2 ^ 16 ∧ ∀ a ∈ c.attributes, a.Fits

end Code

def tagByte (c : Char) : UInt8 := UInt8.ofNat c.toNat

namespace ElementValue

mutual

def write : ElementValue → Bytes
  | .const tag index => tagByte tag :: be16 index
  | .enumConst typeIndex nameIndex => tagByte 'e' :: (be16 typeIndex ++ be16 nameIndex)
  | .classInfo index => tagByte 'c' :: be16 index
  | .nested typeIndex elements =>
      tagByte '@' :: (be16 typeIndex ++ (be16 (UInt16.ofNat elements.length) ++ writeElements elements))
  | .array values => tagByte '[' :: (be16 (UInt16.ofNat values.length) ++ writeValues values)

def writeElements : List (UInt16 × ElementValue) → Bytes
  | [] => []
  | (name, value) :: rest => be16 name ++ value.write ++ writeElements rest

def writeValues : List ElementValue → Bytes
  | [] => []
  | value :: rest => value.write ++ writeValues rest

end

/-- Tags are legal, and lists fit the counts in front of them, to any depth. -/
inductive Fits : ElementValue → Prop
  | const {tag : Char} (index : UInt16) (htag : Attribute.isConstTag tag = true) : Fits (.const tag index)
  | enumConst (typeIndex nameIndex : UInt16) : Fits (.enumConst typeIndex nameIndex)
  | classInfo (index : UInt16) : Fits (.classInfo index)
  | nested (typeIndex : UInt16) {elements : List (UInt16 × ElementValue)} (hlen : elements.length < 2 ^ 16)
      (h : ∀ e ∈ elements, Fits e.2) : Fits (.nested typeIndex elements)
  | array {values : List ElementValue} (hlen : values.length < 2 ^ 16) (h : ∀ v ∈ values, Fits v) :
      Fits (.array values)

end ElementValue

def writeElement (e : UInt16 × ElementValue) : Bytes := be16 e.1 ++ e.2.write

namespace Annotation

def write (a : Annotation) : Bytes := be16 a.typeIndex ++ writeRows writeElement a.elements

def Fits (a : Annotation) : Prop := a.elements.length < 2 ^ 16 ∧ ∀ e ∈ a.elements, e.2.Fits

end Annotation

def AttributeBody.Written (name : String) (bytes : Bytes) : AttributeBody → Prop
  | .code c => name = "Code" ∧ c.Fits ∧ bytes = c.write
  | .visibleAnnotations as => name = "RuntimeVisibleAnnotations" ∧
    (as.length < 2 ^ 16 ∧ ∀ a ∈ as, a.Fits) ∧ bytes = writeRows Annotation.write as
  | .invisibleAnnotations as => name = "RuntimeInvisibleAnnotations" ∧
    (as.length < 2 ^ 16 ∧ ∀ a ∈ as, a.Fits) ∧ bytes = writeRows Annotation.write as
  | _ => False

/-! ## Element values -/

namespace ElementValue

theorem write_nested (typeIndex : UInt16) (elements : List (UInt16 × ElementValue)) :
    write (.nested typeIndex elements) = tagByte '@' :: (be16 typeIndex ++ writeRows writeElement elements) := by
  have helements (es : List (UInt16 × ElementValue)) : writeElements es = es.flatMap writeElement := by
    induction es with
    | nil => rfl
    | cons e es ih => rw [writeElements, flatMap_cons, ih, writeElement]
  rw [write, helements, writeRows]

theorem write_array (values : List ElementValue) : write (.array values) = tagByte '[' :: writeRows write values := by
  have hvalues (vs : List ElementValue) : writeValues vs = vs.flatMap write := by
    induction vs with
    | nil => rfl
    | cons v vs ih => rw [writeValues, flatMap_cons, ih]
  rw [write, hvalues, writeRows]

end ElementValue

namespace Attribute

variable {bytes rest : Bytes}

theorem ofNat_tagByte {c} (hc : c.toNat < 256) : Char.ofNat (tagByte c).toNat = c := by
  rw [tagByte, UInt8.toNat_ofNat_of_lt' hc, Char.ofNat_toNat]

theorem tagByte_ofNat (b : UInt8) : tagByte (Char.ofNat b.toNat) = b := by
  have hb := b.toNat_lt
  have hvalid : b.toNat.isValidChar := .inl (by omega)
  rw [Char.ofNat, dif_pos hvalid]
  exact UInt8.ofNat_toNat

theorem toNat_lt_of_isConstTag {c} (hc : isConstTag c = true) : c.toNat < 256 := by
  simp only [isConstTag, Bool.or_eq_true, decide_eq_true_eq] at hc
  rcases hc with ((((((((rfl | rfl) | rfl) | rfl) | rfl) | rfl) | rfl) | rfl) | rfl) <;> decide

theorem word_seq_eq_some {α β r} {f : UInt16 → α → β} {b} : (f <$> Reader.u16 <*> r) bytes = some (b, rest) ↔
      ∃ x mid, bytes = be16 x ++ mid ∧ ∃ a, r mid = some (a, rest) ∧ f x a = b := by
  simp only [seq_eq_some, map_eq_some, u16_eq_some]
  constructor
  · rintro ⟨_, mid, ⟨x, hmid, rfl⟩, h⟩
    exact ⟨x, mid, hmid, h⟩
  · rintro ⟨x, mid, hmid, h⟩
    exact ⟨f x, mid, ⟨x, hmid, rfl⟩, h⟩

section

variable {m : Nat} {value : Reader ElementValue}
  (hvalue : ∀ bytes v rest, bytes.length ≤ m → (value bytes = some (v, rest) ↔ v.Fits ∧ bytes = v.write ++ rest))

include hvalue

theorem readElement_eq_some {e} (hm : bytes.length ≤ m) :
    readElement value bytes = some (e, rest) ↔ e.2.Fits ∧ bytes = writeElement e ++ rest := by
  have hshort {x : UInt16} {mid : Bytes} (hmid : bytes = be16 x ++ mid) : mid.length ≤ m := by
    simp only [hmid, length_append] at hm
    omega
  rw [readElement, word_seq_eq_some]
  constructor
  · rintro ⟨x, mid, hmid, v, hv, rfl⟩
    obtain ⟨hfits, rfl⟩ := (hvalue _ _ _ (hshort hmid)).mp hv
    exact ⟨hfits, by rw [hmid, writeElement, append_assoc]⟩
  · rintro ⟨hfits, hbytes⟩
    exact ⟨_, _, hbytes, _, (hvalue _ _ _ (hshort hbytes)).mpr ⟨hfits, rfl⟩, rfl⟩

theorem elements_eq_some {elements} (hm : bytes.length ≤ m) : rows (readElement value) bytes = some (elements, rest) ↔
      (elements.length < 2 ^ 16 ∧ ∀ e ∈ elements, e.2.Fits) ∧ bytes = writeRows writeElement elements ++ rest :=
  rows_eq_some_of_le (fun _ _ _ => readElement_eq_some hvalue) hm

end

section

variable {n : Nat} {v : ElementValue} (ih : ∀ bytes v rest, bytes.length ≤ n →
  (readValueUpTo n bytes = some (v, rest) ↔ v.Fits ∧ bytes = v.write ++ rest))

include ih

theorem fits_of_readValueUpTo (hn : bytes.length ≤ n + 1) (h : readValueUpTo (n + 1) bytes = some (v, rest)) :
    v.Fits ∧ bytes = v.write ++ rest := by
  simp only [readValueUpTo, bind_eq_some, u8_eq_some] at h
  obtain ⟨b, mid, rfl, h⟩ := h
  have hmid : mid.length ≤ n := Nat.le_of_succ_le_succ hn
  rw [← tagByte_ofNat b]
  generalize Char.ofNat b.toNat = tag at h
  split at h
  · rename_i htag
    obtain ⟨index, hindex, rfl⟩ := map_eq_some.mp h
    exact ⟨.const index htag, by rw [u16_eq_some.mp hindex, ElementValue.write, cons_append]⟩
  split at h
  · subst tag
    obtain ⟨typeIndex, mid, rfl, nameIndex, hname, rfl⟩ := word_seq_eq_some.mp h
    exact ⟨.enumConst typeIndex nameIndex, by
      rw [u16_eq_some.mp hname, ElementValue.write, cons_append, append_assoc]⟩
  split at h
  · subst tag
    obtain ⟨index, hindex, rfl⟩ := map_eq_some.mp h
    exact ⟨.classInfo index, by rw [u16_eq_some.mp hindex, ElementValue.write, cons_append]⟩
  split at h
  · subst tag
    obtain ⟨typeIndex, mid, rfl, elements, helements, rfl⟩ := word_seq_eq_some.mp h
    rw [length_append] at hmid
    obtain ⟨⟨hlen, hfits⟩, rfl⟩ := (elements_eq_some ih (by omega)).mp helements
    exact ⟨.nested typeIndex hlen hfits, by
      rw [ElementValue.write_nested, cons_append, append_assoc]⟩
  split at h
  · subst tag
    obtain ⟨values, hvalues, rfl⟩ := map_eq_some.mp h
    obtain ⟨⟨hlen, hfits⟩, rfl⟩ := (rows_eq_some_of_le ih hmid).mp hvalues
    exact ⟨.array hlen hfits, by rw [ElementValue.write_array, cons_append]⟩
  · cases h

theorem readValueUpTo_write (hn : (v.write ++ rest).length ≤ n + 1) (hfits : v.Fits) :
    readValueUpTo (n + 1) (v.write ++ rest) = some (v, rest) := by
  simp only [readValueUpTo, bind_eq_some]
  cases hfits with
  | const index htag =>
      refine ⟨_, _, rfl, ?_⟩
      rw [ofNat_tagByte (toNat_lt_of_isConstTag htag), if_pos htag]
      exact map_eq_some.mpr ⟨index, u16_eq_some.mpr rfl, rfl⟩
  | enumConst typeIndex nameIndex =>
      refine ⟨_, _, rfl, word_seq_eq_some.mpr ⟨typeIndex, be16 nameIndex ++ rest, append_assoc .., ?_⟩⟩
      exact ⟨nameIndex, u16_eq_some.mpr rfl, rfl⟩
  | classInfo index => exact ⟨_, _, rfl, map_eq_some.mpr ⟨index, u16_eq_some.mpr rfl, rfl⟩⟩
  | @nested typeIndex elements hlen hfits =>
      rw [ElementValue.write_nested] at hn ⊢
      simp only [length_cons, length_append] at hn
      refine ⟨_, _, rfl, word_seq_eq_some.mpr
        ⟨typeIndex, writeRows writeElement elements ++ rest, append_assoc .., elements, ?_, rfl⟩⟩
      exact (elements_eq_some ih (by rw [length_append]; omega)).mpr ⟨⟨hlen, hfits⟩, rfl⟩
  | @array values hlen hfits =>
      rw [ElementValue.write_array] at hn ⊢
      have hvalues := (rows_eq_some_of_le ih (Nat.le_of_succ_le_succ hn)).mpr ⟨⟨hlen, hfits⟩, rfl⟩
      exact ⟨_, _, rfl, map_eq_some.mpr ⟨values, hvalues, rfl⟩⟩

end

/-- There are no more levels than bytes. -/
theorem readValueUpTo_eq_some {n v} (hn : bytes.length ≤ n) :
    readValueUpTo n bytes = some (v, rest) ↔ v.Fits ∧ bytes = v.write ++ rest := by
  induction n generalizing bytes rest v with
  | zero =>
      obtain rfl := length_eq_zero_iff.mp (Nat.le_zero.mp hn)
      refine iff_of_false (fun h => by cases h) ?_
      rintro ⟨-, h⟩
      cases v <;> simp [ElementValue.write] at h
  | succ n ih =>
      have ih (bytes : Bytes) (v : ElementValue) (rest : Bytes) (hn : bytes.length ≤ n) := @ih bytes rest v hn
      refine ⟨fits_of_readValueUpTo ih hn, ?_⟩
      rintro ⟨hfits, rfl⟩
      exact readValueUpTo_write ih hn hfits

theorem readAnnotationRow_eq_some {a} :
    readAnnotationRow bytes = some (a, rest) ↔ a.Fits ∧ bytes = a.write ++ rest := by
  have helements {bytes rest : Bytes} {elements : List (UInt16 × ElementValue)} :
      rows (readElement readValue) bytes = some (elements, rest) ↔ _ :=
    elements_eq_some (fun _ _ _ _ => readValueUpTo_eq_some (Nat.le_refl _)) (Nat.le_refl bytes.length)
  simp only [readAnnotationRow, word_seq_eq_some, helements]
  constructor
  · rintro ⟨typeIndex, _, rfl, elements, ⟨hfits, rfl⟩, rfl⟩
    exact ⟨hfits, (append_assoc ..).symm⟩
  · rintro ⟨hfits, rfl⟩
    exact ⟨_, _, rfl, _, ⟨hfits, rfl⟩, rfl⟩

/-! ## Code -/

theorem readHandler_eq_some {r} : readHandler bytes = some (r, rest) ↔ bytes = r.write ++ rest := by
  simp only [readHandler, seq_eq_some, map_eq_some, u16_eq_some]
  constructor
  · rintro ⟨_, _, ⟨_, _, ⟨_, _, ⟨startPc, rfl, rfl⟩, endPc, rfl, rfl⟩, handlerPc, rfl, rfl⟩, catchType, rfl, rfl⟩
    simp only [HandlerRow.write, append_assoc]
  · rintro rfl
    exact ⟨_, _, ⟨_, _, ⟨_, _, ⟨_, rfl, rfl⟩, _, rfl, rfl⟩, _, rfl, rfl⟩, _, rfl, rfl⟩

theorem readCode_eq_some {c} : readCode bytes = some (c, rest) ↔ c.Fits ∧ bytes = c.write ++ rest := by
  have hhandler (bytes : Bytes) (r : HandlerRow) (rest : Bytes) :
      readHandler bytes = some (r, rest) ↔ True ∧ bytes = r.write ++ rest := by
    rw [readHandler_eq_some, true_and]
  simp only [readCode, bind_eq_some, u16_eq_some, u32_eq_some, take_eq_some,
    rows_eq_some hhandler, rows_eq_some (fun _ _ _ => read_eq_some), pure_eq_some]
  constructor
  · rintro ⟨maxStack, _, rfl, maxLocals, _, rfl, length, _, rfl, code, _, ⟨hlen, rfl⟩, handlers, _,
      ⟨⟨hhandlers, -⟩, rfl⟩, attributes, _, ⟨hattributes, rfl⟩, rfl, rfl⟩
    refine ⟨⟨?_, hhandlers, hattributes⟩, ?_⟩
    · rw [hlen]
      exact length.toNat_lt
    · simp only [Code.write, hlen, UInt32.ofNat_toNat, append_assoc]
  · rintro ⟨hfits, rfl⟩
    simp only [Code.write, append_assoc]
    exact ⟨_, _, rfl, _, _, rfl, _, _, rfl, _, _, ⟨(UInt32.toNat_ofNat_of_lt' hfits.code).symm, rfl⟩, _, _,
      ⟨⟨hfits.handlers, fun _ _ => trivial⟩, rfl⟩, _, _, ⟨hfits.attributes, rfl⟩, rfl, rfl⟩

/-! ## Interpretation -/

theorem bodyReader_eq_some {name}
    (hname : name ∈ ["Code", "RuntimeVisibleAnnotations", "RuntimeInvisibleAnnotations"]) :
    ∃ reader, bodyReader name = some reader ∧ ∀ bytes body rest,
      reader bytes = some (body, rest) ↔ ∃ p, body.Written name p ∧ bytes = p ++ rest := by
  have hrows {bytes rest : Bytes} {as : List Annotation} : rows readAnnotationRow bytes = some (as, rest) ↔ _ :=
    rows_eq_some fun _ _ _ => readAnnotationRow_eq_some
  simp only [mem_cons, not_mem_nil, or_false] at hname
  obtain rfl | rfl | rfl := hname
  all_goals
    refine ⟨_, rfl, fun bytes body rest => ?_⟩
    simp only [map_eq_some, readCode_eq_some, hrows]
    constructor
    · rintro ⟨_, ⟨h, hbytes⟩, rfl⟩
      exact ⟨_, ⟨rfl, h, rfl⟩, hbytes⟩
    · rintro ⟨p, h, rfl⟩
      cases body <;> simp only [AttributeBody.Written, String.reduceEq, false_and] at h
      exact ⟨_, ⟨h.2.1, by rw [h.2.2]⟩, rfl⟩

/-- An attribute with code or annotations is interpreted as what its body is the written form of. If a
proper part of the body is a written form, the error gives the length of that part, and if no part is, the
attribute is malformed. -/
theorem interpret_exact (pool : Pool) (a : Attribute) (name : String) (hutf8 : pool.utf8 a.nameIndex = .ok name)
    (hname : name ∈ ["Code", "RuntimeVisibleAnnotations", "RuntimeInvisibleAnnotations"]) :
    (∀ body, a.interpret pool = .ok (some body) ↔ body.Written name a.info) ∧
    (∀ declared parsed, a.interpret pool = .error (.attributeLength name declared parsed) ↔
      declared = a.info.length ∧ ∃ body : AttributeBody, ∃ p, body.Written name p ∧ p <+: a.info ∧ p ≠ a.info ∧
        parsed = p.length) ∧ (a.interpret pool = .error (.malformedAttribute name) ↔
      ∀ body : AttributeBody, ∀ p, body.Written name p → ¬ p <+: a.info) := by
  obtain ⟨reader, hreader, h⟩ := bodyReader_eq_some hname
  -- the written forms that the body starts with, in terms of the reader
  have hwhole (body : AttributeBody) : body.Written name a.info ↔ reader a.info = some (body, []) := by
    simp [h]
  have hpart (parsed : Nat) : (∃ body : AttributeBody, ∃ p, body.Written name p ∧ p <+: a.info ∧ p ≠ a.info ∧
      parsed = p.length) ↔
        ∃ body rest, reader a.info = some (body, rest) ∧ rest ≠ [] ∧ parsed = a.info.length - rest.length := by
    simp only [h]
    constructor
    · rintro ⟨body, p, hw, ⟨rest, hrest⟩, hne, rfl⟩
      exact ⟨body, rest, ⟨p, hw, hrest.symm⟩, fun hnil => hne (by simpa [hnil] using hrest), by simp [← hrest]⟩
    · rintro ⟨body, rest, ⟨p, hw, hinfo⟩, hne, rfl⟩
      exact ⟨body, p, hw, ⟨rest, hinfo.symm⟩, fun heq => hne (by simpa [heq] using hinfo), by simp [hinfo]⟩
  have hnone : (∀ body : AttributeBody, ∀ p, body.Written name p → ¬ p <+: a.info) ↔ reader a.info = none := by
    rw [Option.eq_none_iff_forall_ne_some]
    constructor
    · rintro hall ⟨body, rest⟩ hread
      obtain ⟨p, hw, hinfo⟩ := (h _ _ _).mp hread
      exact hall body p hw ⟨rest, hinfo.symm⟩
    · rintro hall body p hw ⟨rest, hrest⟩
      exact hall (body, rest) ((h _ _ _).mpr ⟨p, hw, hrest.symm⟩)
  rw [interpret, hutf8]
  simp only [hwhole, hpart, hnone, bind, Except.bind, hreader]
  cases reader a.info with
  | none => simp
  | some read =>
      obtain ⟨body, rest⟩ := read
      cases rest with
      | nil => simp [pure, Except.pure]
      | cons b rest => simp [eq_comm, and_assoc]

def poolOf (name : String) : Pool := .ofConstants [.utf8 (name.toList.map tagByte)]

/-- An annotation whose element is an array of an annotation with a number. -/
def annotationInArray : Annotation := ⟨2, [(3, .array [.nested 4 [(5, .const 'I' 6)]])]⟩

/-- With a byte behind it, the body of an attribute with a nested annotation has the wrong length. -/
theorem interpret_nestedAnnotation :
    interpret (poolOf "RuntimeVisibleAnnotations") ⟨1, writeRows Annotation.write [annotationInArray]⟩ =
        .ok (some (.visibleAnnotations [annotationInArray])) ∧
      interpret (poolOf "RuntimeVisibleAnnotations") ⟨1, writeRows Annotation.write [annotationInArray] ++ [0]⟩ =
        .error (.attributeLength "RuntimeVisibleAnnotations" 22 21) := by
  have hname : (poolOf "RuntimeVisibleAnnotations").utf8 1 = .ok "RuntimeVisibleAnnotations" :=
    congrArg Except.ok (show ModifiedUtf8.decode ("RuntimeVisibleAnnotations".toList.map tagByte) = _ by decide +kernel)
  have hvalue : ElementValue.Fits (.array [.nested 4 [(5, .const 'I' 6)]]) := by
    refine .array (by decide) (forall_mem_singleton.mpr ?_)
    exact .nested 4 (by decide) (forall_mem_singleton.mpr (.const 6 (by decide)))
  have hwritten : AttributeBody.Written "RuntimeVisibleAnnotations" (writeRows Annotation.write [annotationInArray])
      (.visibleAnnotations [annotationInArray]) :=
    ⟨rfl, ⟨by decide, forall_mem_singleton.mpr ⟨by decide, forall_mem_singleton.mpr hvalue⟩⟩, rfl⟩
  refine ⟨((interpret_exact _ ⟨1, _⟩ _ hname (by decide)).1 _).mpr hwritten, ?_⟩
  exact ((interpret_exact _ ⟨1, _⟩ _ hname (by decide)).2.1 _ _).mpr
    ⟨by decide, _, _, hwritten, prefix_append _ _, by simp, by decide⟩

end Attribute

end JvmLift

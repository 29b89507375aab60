import JvmLift.Proofs.Type.Descriptor
import JvmLift.Unit.Lift
import Mathlib.Algebra.Ring.Nat

/-!
# Slots of parameters

A type of two slots is written in one character, so a descriptor that fits in a constant may announce more slots than
sixteen bits can count. The count is exact unless it does.
-/
namespace JvmLift

open List

namespace MethodType

def width (t : ErasedType) : Nat := if t.isWide then 2 else 1

/-- The slots of the receiver and of the parameters, as a number without a bound. -/
def slotCount (params : List ErasedType) (isStatic : Bool) : Nat :=
  (if isStatic then 0 else 1) + (params.map width).sum

variable (params : List ErasedType) (isStatic : Bool)

theorem toNat_foldl_slotWidth (n : UInt16) : (params.foldl (fun n t => n + slotWidth t) n).toNat =
    (n.toNat + (params.map width).sum) % 2 ^ 16 := by
  induction params generalizing n with
  | nil => simp [Nat.mod_eq_of_lt n.toNat_lt]
  | cons t ts ih =>
      have hwidth : (slotWidth t).toNat = width t := by unfold slotWidth width; split <;> rfl
      rw [foldl_cons, ih, UInt16.toNat_add, hwidth, map_cons, sum_cons, Nat.mod_add_mod, Nat.add_assoc]

theorem toNat_parameterSlots : (parameterSlots params isStatic).toNat = slotCount params isStatic % 2 ^ 16 := by
  rw [parameterSlots, toNat_foldl_slotWidth]
  cases isStatic <;> rfl

theorem assignSlots_eq (n : UInt16) : assignSlots n params =
    params.mapIdx fun i t => ((params.take i).foldl (fun n t => n + slotWidth t) n, t) := by
  induction params generalizing n with
  | nil => rfl
  | cons t ts ih => simp [assignSlots, ih]

theorem slotCount_take_le (n : Nat) : slotCount (params.take n) isStatic ≤ slotCount params isStatic := by
  conv_rhs => rw [slotCount, ← take_append_drop n params, map_append, sum_append]
  rw [slotCount]
  omega

/-- Every step of the count is exact if there are no more slots than sixteen bits can count. -/
theorem parameterSlots_exact_iff : slotCount params isStatic < 2 ^ 16 ↔
    ∀ n, (parameterSlots (params.take n) isStatic).toNat = slotCount (params.take n) isStatic := by
  constructor
  · intro h n
    rw [toNat_parameterSlots, Nat.mod_eq_of_lt (Nat.lt_of_le_of_lt (slotCount_take_le params isStatic n) h)]
  · intro h
    have hall := h params.length
    rw [take_length] at hall
    exact hall ▸ (parameterSlots params isStatic).toNat_lt

def placed : List (Nat × ErasedType) := params.mapIdx fun i t => (slotCount (params.take i) isStatic, t)

theorem assignSlots_placed (h : slotCount params isStatic < 2 ^ 16) :
    (assignSlots (firstSlot isStatic) params).map (fun p => (p.1.toNat, p.2)) = placed params isStatic := by
  refine ext_getElem? fun i => ?_
  rw [assignSlots_eq, placed, getElem?_map, getElem?_mapIdx, getElem?_mapIdx, Option.map_map,
    ← (parameterSlots_exact_iff params isStatic).mp h i]
  rfl

/-- A parameter takes at least one character of the descriptor and at most two slots. -/
theorem slotCount_le_of_parse {text m} (h : Descriptor.parseMethod? text = some m) :
    slotCount m.params isStatic + 5 ≤ 2 * text.length := by
  obtain ⟨hm, rfl⟩ := (Descriptor.reads_methodType.whole trivial).mp h
  have hparams (ts : List ErasedType) (hts : ∀ t ∈ ts, t.IsField) :
      (ts.map width).sum ≤ 2 * (ts.flatMap Descriptor.written).length := by
    induction ts with
    | nil => simp
    | cons t ts ih =>
        obtain ⟨ht, hts⟩ := forall_mem_cons.mp hts
        have hpos := length_pos_iff.mpr (Descriptor.written_ne_nil ht)
        have hwidth : width t ≤ 2 := by unfold width; split <;> omega
        have hrest := ih hts
        rw [map_cons, sum_cons, flatMap_cons, length_append]
        omega
  have hresult : Descriptor.written m.result ≠ [] := by
    rcases hm.result with h | h
    · rw [h]
      simp [Descriptor.written, ErasedType.toDescriptor]
    · exact Descriptor.written_ne_nil h
  have hpos := length_pos_iff.mpr hresult
  have hsum := hparams m.params hm.params
  have hfirst : (if isStatic then 0 else 1) ≤ 1 := by split <;> omega
  rw [String.length_ofList, Descriptor.toDescriptor_toList, slotCount]
  simp only [length_append, length_cons]
  omega

end MethodType

theorem Locals.params_withParameters (named : List (ParameterDecl × UInt16 × ErasedType)) (ls : Locals) :
    (named.foldl (fun ls p => ls.withParameter p.2.1 p.1.name p.2.2) ls).params =
      (named.map fun p => (p.2.1, p.1.name, p.2.2)).reverse ++ ls.params := by
  induction named generalizing ls with
  | nil => rfl
  | cons p named ih =>
      rw [foldl_cons, ih, map_cons, reverse_cons, append_assoc]
      rfl

open MethodType

/-- Where a descriptor announces no more slots than sixteen bits can count, as one of up to 32770 characters does, the
count is exact at each step, and so are the slots under which parameters are looked up and named. Where it announces
more, the count is not what it should be. -/
theorem parameterSlots_exact {text : String} {m : MethodType} (h : Descriptor.parseMethod? text = some m)
    (isStatic : Bool) : (text.length ≤ 32770 → slotCount m.params isStatic < 2 ^ 16) ∧
    ((parameterSlots m.params isStatic).toNat = slotCount m.params isStatic ↔ slotCount m.params isStatic < 2 ^ 16) ∧
    (slotCount m.params isStatic < 2 ^ 16 →
      (∀ n, (parameterSlots (m.params.take n) isStatic).toNat = slotCount (m.params.take n) isStatic) ∧
      ∃ slots : List (UInt16 × ErasedType), slots.map (fun p => (p.1.toNat, p.2)) = placed m.params isStatic ∧
        (∀ pool member, member.flags.isStatic = isStatic →
          Declare.parameterRows? pool member m.params.length = none →
            Declare.parameterNames pool member m.params =
              Declare.slotNames pool (((member.code? pool).bind (·.localRows? pool)).getD []) 0 slots) ∧
        ∀ (c : MethodCode) pool ps, c.type = m → c.isStatic = isStatic →
          (c.locals pool ps).params = ((ps.zip slots).map fun p => (p.2.1, p.1.name, p.2.2)).reverse) := by
  have hbound := slotCount_le_of_parse isStatic h
  refine ⟨fun hlen => by omega, ⟨fun heq => ?_, fun hlt => ?_⟩, fun hlt => ⟨?_, _, assignSlots_placed _ _ hlt, ?_, ?_⟩⟩
  · exact heq ▸ (parameterSlots m.params isStatic).toNat_lt
  · rw [toNat_parameterSlots, Nat.mod_eq_of_lt hlt]
  · exact (parameterSlots_exact_iff _ _).mp hlt
  · rintro pool member rfl hrows
    rw [Declare.parameterNames, hrows]
  · rintro c pool ps rfl rfl
    exact (Locals.params_withParameters _ _).trans (append_nil _)

/-- A method with a parameter behind a wide one. -/
def behindWide : MethodCode := { (default : MethodCode) with type := ⟨[.int, .long, .int], .void⟩ }

theorem parameterSlots_exact_behindWide : Descriptor.parseMethod? "(IJI)V" = some behindWide.type ∧
    (parameterSlots behindWide.type.params false).toNat = 5 ∧
    ∃ slots : List (UInt16 × ErasedType), slots.map (fun p => (p.1.toNat, p.2)) = [(1, .int), (2, .long), (4, .int)] ∧
      Declare.parameterNames default default behindWide.type.params = Declare.slotNames default [] 0 slots ∧
      (behindWide.locals default [default, default]).params =
        (([default, default].zip slots).map fun p => (p.2.1, ParameterDecl.name p.1, p.2.2)).reverse := by
  have hparse : Descriptor.parseMethod? "(IJI)V" = some behindWide.type := by decide
  obtain ⟨hshort, hcount, hexact⟩ := parameterSlots_exact hparse false
  have hlt := hshort (by decide)
  obtain ⟨-, slots, hslots, hnames, hlocals⟩ := hexact hlt
  exact ⟨hparse, hcount.mpr hlt, slots, hslots, hnames default default rfl rfl, hlocals behindWide default _ rfl rfl⟩

/-- Parameters of two slots each, as many as half the numbers of sixteen bits. -/
def manyLongs : MethodType := ⟨replicate 32768 .long, .void⟩

theorem slotCount_longs (n : Nat) : slotCount (replicate n .long) true = 2 * n := by
  simp [slotCount, width, ErasedType.isWide, Nat.mul_comm]

theorem length_encode_longs (n : Nat) :
    (ModifiedUtf8.encode (MethodType.toDescriptor ⟨replicate n .long, .void⟩)).length = n + 3 := by
  have hlongs : (((replicate n .long).flatMap Descriptor.written).flatMap ModifiedUtf8.unitsOf).flatMap
      ModifiedUtf8.encodeUnit = replicate n 0x4A := by
    induction n with
    | zero => rfl
    | succ n ih =>
        rw [replicate_succ, flatMap_cons, flatMap_append, flatMap_append, ih]
        rfl
  rw [ModifiedUtf8.encode, Descriptor.toDescriptor_toList]
  simp only [flatMap_cons, flatMap_append, hlongs, length_append, length_replicate]
  exact Nat.add_comm 1 (n + 2)

/-- The descriptor fits in a constant, and its slots are counted as none. -/
theorem parameterSlots_manyLongs : Descriptor.parseMethod? manyLongs.toDescriptor = some manyLongs ∧
    (ModifiedUtf8.encode manyLongs.toDescriptor).length = 32771 ∧ slotCount manyLongs.params true = 65536 ∧
    (parameterSlots manyLongs.params true).toNat = 0 := by
  have hcount : slotCount manyLongs.params true = 65536 := slotCount_longs 32768
  refine ⟨(Descriptor.reads_methodType.whole trivial).mpr ⟨⟨fun t ht => ?_, Or.inl rfl⟩, String.ofList_toList⟩,
    length_encode_longs 32768, hcount, ?_⟩
  · rw [eq_of_mem_replicate ht]
    trivial
  · rw [toNat_parameterSlots, hcount]
    decide

end JvmLift

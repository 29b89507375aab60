import JvmLift.Proofs.Bytes
import JvmLift.Proofs.Instruction.Decode
import Mathlib.Data.List.Forall2
import Mathlib.Tactic.FinCases

/-!
# The grammar of instructions

The written forms of operations, as the manual of the machine lists them: an opcode and its operands. Branch operands
are distances, and the operands of a switch start on a multiple of four.
-/
namespace JvmLift.Instruction

open Bytes (be16 be32)

/-! ## Written forms -/

theorem neZero_two : @NeZero Nat Zero.ofOfNat0 2 := ⟨by decide⟩

theorem neZero_three : @NeZero Nat Zero.ofOfNat0 3 := ⟨by decide⟩

section

-- the ranges of the constants in the table
attribute [local instance] neZero_two neZero_three

def plainForms : List (UInt8 × Operation Nat) :=
  [(0x00, .nop), (0x01, .nullConst),
   (0x02, .intConst (-1)), (0x03, .intConst 0), (0x04, .intConst 1), (0x05, .intConst 2),
   (0x06, .intConst 3), (0x07, .intConst 4), (0x08, .intConst 5),
   (0x09, .longConst 0), (0x0a, .longConst 1), (0x0b, .floatConst 0), (0x0c, .floatConst 1),
   (0x0d, .floatConst 2), (0x0e, .doubleConst 0), (0x0f, .doubleConst 1),
   (0x1a, .load .int 0), (0x1b, .load .int 1), (0x1c, .load .int 2), (0x1d, .load .int 3),
   (0x1e, .load .long 0), (0x1f, .load .long 1), (0x20, .load .long 2), (0x21, .load .long 3),
   (0x22, .load .float 0), (0x23, .load .float 1), (0x24, .load .float 2), (0x25, .load .float 3),
   (0x26, .load .double 0), (0x27, .load .double 1), (0x28, .load .double 2),
   (0x29, .load .double 3),
   (0x2a, .load .reference 0), (0x2b, .load .reference 1), (0x2c, .load .reference 2),
   (0x2d, .load .reference 3),
   (0x2e, .arrayLoad .int), (0x2f, .arrayLoad .long), (0x30, .arrayLoad .float),
   (0x31, .arrayLoad .double), (0x32, .arrayLoad .reference), (0x33, .arrayLoad .byte),
   (0x34, .arrayLoad .char), (0x35, .arrayLoad .short),
   (0x3b, .store .int 0), (0x3c, .store .int 1), (0x3d, .store .int 2), (0x3e, .store .int 3),
   (0x3f, .store .long 0), (0x40, .store .long 1), (0x41, .store .long 2), (0x42, .store .long 3),
   (0x43, .store .float 0), (0x44, .store .float 1), (0x45, .store .float 2),
   (0x46, .store .float 3),
   (0x47, .store .double 0), (0x48, .store .double 1), (0x49, .store .double 2),
   (0x4a, .store .double 3),
   (0x4b, .store .reference 0), (0x4c, .store .reference 1), (0x4d, .store .reference 2),
   (0x4e, .store .reference 3),
   (0x4f, .arrayStore .int), (0x50, .arrayStore .long), (0x51, .arrayStore .float),
   (0x52, .arrayStore .double), (0x53, .arrayStore .reference), (0x54, .arrayStore .byte),
   (0x55, .arrayStore .char), (0x56, .arrayStore .short),
   (0x57, .pop), (0x58, .pop2), (0x59, .dup), (0x5a, .dupX1), (0x5b, .dupX2), (0x5c, .dup2),
   (0x5d, .dup2X1), (0x5e, .dup2X2), (0x5f, .swap),
   (0x60, .arith .int .add), (0x61, .arith .long .add), (0x62, .arith .float .add),
   (0x63, .arith .double .add),
   (0x64, .arith .int .sub), (0x65, .arith .long .sub), (0x66, .arith .float .sub),
   (0x67, .arith .double .sub),
   (0x68, .arith .int .mul), (0x69, .arith .long .mul), (0x6a, .arith .float .mul),
   (0x6b, .arith .double .mul),
   (0x6c, .arith .int .div), (0x6d, .arith .long .div), (0x6e, .arith .float .div),
   (0x6f, .arith .double .div),
   (0x70, .arith .int .rem), (0x71, .arith .long .rem), (0x72, .arith .float .rem),
   (0x73, .arith .double .rem),
   (0x74, .neg .int), (0x75, .neg .long), (0x76, .neg .float), (0x77, .neg .double),
   (0x78, .arith .int .shl), (0x79, .arith .long .shl),
   (0x7a, .arith .int .shr), (0x7b, .arith .long .shr),
   (0x7c, .arith .int .ushr), (0x7d, .arith .long .ushr),
   (0x7e, .arith .int .and), (0x7f, .arith .long .and),
   (0x80, .arith .int .or), (0x81, .arith .long .or),
   (0x82, .arith .int .xor), (0x83, .arith .long .xor),
   (0x85, .convert .int .long), (0x86, .convert .int .float), (0x87, .convert .int .double),
   (0x88, .convert .long .int), (0x89, .convert .long .float), (0x8a, .convert .long .double),
   (0x8b, .convert .float .int), (0x8c, .convert .float .long), (0x8d, .convert .float .double),
   (0x8e, .convert .double .int), (0x8f, .convert .double .long), (0x90, .convert .double .float),
   (0x91, .narrow .byte), (0x92, .narrow .char), (0x93, .narrow .short),
   (0x94, .longCompare), (0x95, .floatCompare false), (0x96, .floatCompare true),
   (0x97, .doubleCompare false), (0x98, .doubleCompare true),
   (0xac, .leave (some .int)), (0xad, .leave (some .long)), (0xae, .leave (some .float)),
   (0xaf, .leave (some .double)), (0xb0, .leave (some .reference)), (0xb1, .leave none),
   (0xbe, .arrayLength), (0xbf, .throw), (0xc2, .monitorEnter), (0xc3, .monitorExit)]

end

def indexForms : List (UInt8 × (UInt16 → Operation Nat)) :=
  [(0x13, .loadConst), (0x14, .loadWideConst), (0xb2, .getStatic), (0xb3, .putStatic),
   (0xb4, .getField), (0xb5, .putField), (0xb6, .invokeVirtual), (0xb7, .invokeSpecial),
   (0xb8, .invokeStatic), (0xbb, .new), (0xbd, .newRefArray), (0xc0, .checkCast),
   (0xc1, .instanceOf)]

/-- Opcodes followed by a slot, which takes two bytes in the wide form. -/
def slotForms : List (UInt8 × (UInt16 → Operation Nat)) :=
  [(0x15, .load .int), (0x16, .load .long), (0x17, .load .float), (0x18, .load .double),
   (0x19, .load .reference), (0x36, .store .int), (0x37, .store .long), (0x38, .store .float),
   (0x39, .store .double), (0x3a, .store .reference), (0xa9, .ret)]

def branchForms : List (UInt8 × (Nat → Operation Nat)) :=
  [(0x99, .ifZero .eq), (0x9a, .ifZero .ne), (0x9b, .ifZero .lt), (0x9c, .ifZero .ge),
   (0x9d, .ifZero .gt), (0x9e, .ifZero .le),
   (0x9f, .ifIntCmp .eq), (0xa0, .ifIntCmp .ne), (0xa1, .ifIntCmp .lt), (0xa2, .ifIntCmp .ge),
   (0xa3, .ifIntCmp .gt), (0xa4, .ifIntCmp .le), (0xa5, .ifRefCmp .eq), (0xa6, .ifRefCmp .ne),
   (0xa7, .goto), (0xa8, .jsr), (0xc6, .ifNull), (0xc7, .ifNonNull)]

def farBranchForms : List (UInt8 × (Nat → Operation Nat)) := [(0xc8, .goto), (0xc9, .jsr)]

def Leads (address : Nat) (distance : Int) (target : Nat) : Prop := (target : Int) = address + distance

/-- Bytes between the opcode of a switch and its operands, up to the next multiple of four. -/
def IsPadding (address : Nat) (pad : Bytes) : Prop := pad.length < 4 ∧ 4 ∣ address + 1 + pad.length

/-- The operands of an operation under an opcode, for an instruction at an address. -/
inductive Operands (address : Nat) : UInt8 → Operation Nat → Bytes → Prop
  | plain {b op} (h : (b, op) ∈ plainForms) : Operands address b op []
  | indexed {b f} (h : (b, f) ∈ indexForms) (index : UInt16) : Operands address b (f index) (be16 index)
  | slotted {b f} (h : (b, f) ∈ slotForms) (slot : UInt8) : Operands address b (f slot.toUInt16) [slot]
  | branch {b f t} (h : (b, f) ∈ branchForms) (distance : Int16) (ht : Leads address distance.toInt t) :
      Operands address b (f t) (be16 distance.toUInt16)
  | farBranch {b f t} (h : (b, f) ∈ farBranchForms) (distance : Int32)
      (ht : Leads address distance.toInt t) : Operands address b (f t) (be32 distance.toUInt32)
  | pushByte (value : Int8) : Operands address 0x10 (.intConst value.toInt32) [value.toUInt8]
  | pushShort (value : Int16) :
      Operands address 0x11 (.intConst value.toInt32) (be16 value.toUInt16)
  | loadConst (index : UInt8) : Operands address 0x12 (.loadConst index.toUInt16) [index]
  | increment (slot : UInt8) (amount : Int8) :
      Operands address 0x84 (.increment slot.toUInt16 amount.toInt16) [slot, amount.toUInt8]
  | tableSwitch {pad : Bytes} {default : Int32} {low high : Int32} {distances : List Int32} {t ts}
      (hpad : IsPadding address pad) (hdefault : Leads address default.toInt t)
      (hcount : (distances.length : Int) = high.toInt - low.toInt + 1) (hle : low.toInt ≤ high.toInt)
      (hts : List.Forall₂ (fun d t => Leads address d.toInt t) distances ts) :
      Operands address 0xaa (.tableSwitch t low high ts)
        (pad ++ (be32 default.toUInt32 ++ (be32 low.toUInt32 ++ (be32 high.toUInt32 ++
          distances.flatMap fun d => be32 d.toUInt32))))
  | lookupSwitch {pad : Bytes} {default : Int32} {count : Int32} {rows : List (Int32 × Int32)} {t ps}
      (hpad : IsPadding address pad) (hdefault : Leads address default.toInt t)
      (hcount : (rows.length : Int) = count.toInt)
      (hps : List.Forall₂ (fun r p => p.1 = r.1 ∧ Leads address r.2.toInt p.2) rows ps) :
      Operands address 0xab (.lookupSwitch t ps)
        (pad ++ (be32 default.toUInt32 ++ (be32 count.toUInt32 ++
          rows.flatMap fun r => be32 r.1.toUInt32 ++ be32 r.2.toUInt32)))
  | invokeInterface (index : UInt16) (count reserved : UInt8) :
      Operands address 0xb9 (.invokeInterface index count) (be16 index ++ [count, reserved])
  | invokeDynamic (index reserved : UInt16) :
      Operands address 0xba (.invokeDynamic index) (be16 index ++ be16 reserved)
  | newArray (code : UInt8) : Operands address 0xbc (.newArray code) [code]
  | newMultiArray (index : UInt16) (dimensions : UInt8) :
      Operands address 0xc5 (.newMultiArray index dimensions) (be16 index ++ [dimensions])

/-- The bytes behind `0xc4` in a wide form. -/
inductive WideOperands : UInt8 → Operation Nat → Bytes → Prop
  | slotted {b f} (h : (b, f) ∈ slotForms) (slot : UInt16) : WideOperands b (f slot) (b :: be16 slot)
  | increment (slot : UInt16) (amount : Int16) :
      WideOperands 0x84 (.increment slot amount) (0x84 :: (be16 slot ++ be16 amount.toUInt16))

inductive Encodes (address : Nat) : UInt8 → Operation Nat → Bytes → Prop
  | narrow {b op bytes} (h : Operands address b op bytes) : Encodes address b op (b :: bytes)
  | wide {b op bytes} (h : WideOperands b op bytes) : Encodes address b op (0xc4 :: bytes)

/-- An instruction stands at an offset of the code: the bytes from there to its end encode it, and
it leads only to places in the code. -/
structure StandsAt (code : Bytes) (offset : Nat) (i : Instruction) : Prop where
  offset_eq : i.offset = offset
  next_le : i.next ≤ code.length
  encodes : Encodes offset i.opcode i.op (code.extract offset i.next)
  targets_lt : ∀ t ∈ i.op.targets, t < code.length

/-- Bytes from an address on are written instructions, one behind the other, that lead only to
places below a limit. -/
inductive Written (limit : Nat) : Nat → Bytes → List Instruction → Prop
  | nil {address} : Written limit address [] []
  | cons {address b op bytes rest is} (h : Encodes address b op bytes)
      (ht : ∀ t ∈ op.targets, t < limit) (hrest : Written limit (address + bytes.length) rest is) :
      Written limit address (bytes ++ rest) (⟨address, b, bytes.length, op⟩ :: is)

variable {b : UInt8}

theorem Encodes.ne_nil {address op bytes} (h : Encodes address b op bytes) : bytes ≠ [] := by
  cases h <;> exact List.cons_ne_nil _ _

/-! ## Opcodes that the decoder knows -/

def opcodesOf {γ : Type} (g : Nat → Option γ) : List UInt8 :=
  (List.range 256).filterMap fun n => (g n).map fun _ => UInt8.ofNat n

/-- A table lists what a function of opcodes gives if it has the right opcodes, and the right thing
for each. -/
theorem eq_some_iff_mem {γ g} {forms : List (UInt8 × γ)}
    (hkeys : opcodesOf g = forms.map (·.1)) (hforms : ∀ p ∈ forms, g p.1.toNat = some p.2) {c} :
    g b.toNat = some c ↔ (b, c) ∈ forms := by
  constructor
  · intro h
    have hb : b ∈ forms.map (·.1) := by
      rw [← hkeys, opcodesOf, List.mem_filterMap]
      exact ⟨b.toNat, List.mem_range.mpr b.toNat_lt, by simp [h]⟩
    obtain ⟨⟨b, c'⟩, hp, rfl⟩ := List.mem_map.mp hb
    cases h.symm.trans (hforms _ hp)
    exact hp
  · exact hforms (b, c)

theorem opcodesOf_tables : opcodesOf bareOperation? = plainForms.map (·.1) ∧ opcodesOf indexed? = indexForms.map (·.1) ∧
      opcodesOf slotted? = slotForms.map (·.1) ∧ opcodesOf branching? = branchForms.map (·.1) ∧
      opcodesOf farBranching? = farBranchForms.map (·.1) := by
  decide +kernel

theorem plainForms_sound : ∀ p ∈ plainForms, bareOperation? p.1.toNat = some p.2 ∧ p.2.targets = [] := by
  decide +kernel

theorem bareOperation?_eq_some {op} : bareOperation? b.toNat = some op ↔ (b, op) ∈ plainForms :=
  eq_some_iff_mem opcodesOf_tables.1 fun p hp => (plainForms_sound p hp).1

variable {f : UInt16 → Operation Nat}

theorem indexed?_eq_some : indexed? b.toNat = some f ↔ (b, f) ∈ indexForms :=
  eq_some_iff_mem opcodesOf_tables.2.1 (by intro p hp; fin_cases hp <;> rfl)

theorem slotted?_eq_some : slotted? b.toNat = some f ↔ (b, f) ∈ slotForms :=
  eq_some_iff_mem opcodesOf_tables.2.2.1 (by intro p hp; fin_cases hp <;> rfl)

variable {f : Nat → Operation Nat}

theorem branching?_eq_some : branching? b.toNat = some f ↔ (b, f) ∈ branchForms :=
  eq_some_iff_mem opcodesOf_tables.2.2.2.1 (by intro p hp; fin_cases hp <;> simp [branching?, cmpOp])

theorem farBranching?_eq_some : farBranching? b.toNat = some f ↔ (b, f) ∈ farBranchForms :=
  eq_some_iff_mem opcodesOf_tables.2.2.2.2 (by intro p hp; fin_cases hp <;> rfl)

/-! ## Targets -/

theorem targets_indexed : ∀ p ∈ indexForms, ∀ index, (p.2 index).targets = [] := by
  intro p hp
  fin_cases hp <;> exact fun _ => rfl

theorem targets_slotted : ∀ p ∈ slotForms, ∀ slot, (p.2 slot).targets = [] := by
  intro p hp
  fin_cases hp <;> exact fun _ => rfl

theorem targets_branch : ∀ p ∈ branchForms, ∀ t, (p.2 t).targets = [t] := by
  intro p hp
  fin_cases hp <;> exact fun _ => rfl

theorem targets_farBranch : ∀ p ∈ farBranchForms, ∀ t, (p.2 t).targets = [t] := by
  intro p hp
  fin_cases hp <;> exact fun _ => rfl

end JvmLift.Instruction

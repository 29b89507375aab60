import JvmLift.Proofs.Instruction.Grammar
import Mathlib.Algebra.Group.Nat.Defs

/-!
# The decoder accepts the grammar

The decoder accepts the written forms of operations and nothing else. Targets have to fit in a word of 32 bits here;
that they lie in the code is checked afterwards.
-/
namespace JvmLift.Instruction

open List Reader

open Bytes (be16 be32)

/-! ## Steps of the decoder -/

namespace Decoder

variable {α β : Type} {d : Decoder α} {bytes rest : Bytes} {a : α}

theorem pure_ok {b} : (pure a : Decoder α) bytes = .ok (b, rest) ↔ a = b ∧ bytes = rest := by
  change Except.ok (a, bytes) = .ok (b, rest) ↔ _
  simp

theorem map_ok {f : α → β} {b} : (f <$> d) bytes = .ok (b, rest) ↔ ∃ a, d bytes = .ok (a, rest) ∧ f a = b := by
  change (d >>= fun a => pure (f a)) bytes = _ ↔ _
  simp only [bind_ok, pure_ok]
  grind

theorem operand_ok {address r} : operand address r bytes = .ok (a, rest) ↔ r bytes = some (a, rest) := by
  unfold operand
  cases r bytes with
  | none | some p => simp

variable {fault : DecodeFault}

theorem fail_ok : fail fault bytes = .ok (a, rest) ↔ False := by
  simp [fail]

theorem guard_ok {n} (hlen : d bytes = .ok (a, rest) → n ≤ bytes.length) :
    ((get : Decoder Bytes) >>= fun b => if b.length < n then fail fault else d) bytes = .ok (a, rest) ↔
      d bytes = .ok (a, rest) := by
  change (if bytes.length < n then fail fault else d) bytes = _ ↔ _
  split
  · rename_i h
    exact ⟨fun hf => (fail_ok.mp hf).elim, fun hd => absurd (hlen hd) (Nat.not_le.mpr h)⟩
  · exact Iff.rfl

theorem mapM_ok {f : α → Decoder β} {R}
    (hf : ∀ a bytes b rest, f a bytes = .ok (b, rest) ↔ R a b ∧ bytes = rest) {as bs} :
    (as.mapM f) bytes = .ok (bs, rest) ↔ List.Forall₂ R as bs ∧ bytes = rest := by
  induction as generalizing bs with
  | nil =>
      rw [mapM_nil, pure_ok, forall₂_nil_left_iff]
      grind
  | cons a as ih =>
      rw [mapM_cons]
      simp only [bind_ok, hf, pure_ok, forall₂_cons_left_iff]
      constructor
      · rintro ⟨b, _, ⟨hb, rfl⟩, bs, rest, has, rfl, rfl⟩
        obtain ⟨hbs, hrest⟩ := ih.mp has
        exact ⟨⟨b, bs, hb, hbs, rfl⟩, hrest⟩
      · rintro ⟨⟨b, bs, hb, hbs, rfl⟩, rfl⟩
        exact ⟨b, bytes, ⟨hb, rfl⟩, bs, bytes, ih.mpr ⟨hbs, rfl⟩, rfl, rfl⟩

end Decoder

section

variable {bytes rest : Bytes}

theorem int8_eq_some {x} : int8 bytes = some (x, rest) ↔ bytes = x.toUInt8 :: rest := by
  simp only [int8, map_eq_some, u8_eq_some]
  constructor
  · rintro ⟨x, rfl, rfl⟩
    rfl
  · rintro rfl
    exact ⟨_, rfl, rfl⟩

theorem int16_eq_some {x} : int16 bytes = some (x, rest) ↔ bytes = be16 x.toUInt16 ++ rest := by
  simp only [int16, map_eq_some, u16_eq_some]
  constructor
  · rintro ⟨x, rfl, rfl⟩
    rfl
  · rintro rfl
    exact ⟨_, rfl, rfl⟩

theorem int32_eq_some {x} : int32 bytes = some (x, rest) ↔ bytes = be32 x.toUInt32 ++ rest := by
  simp only [int32, map_eq_some, u32_eq_some]
  constructor
  · rintro ⟨x, rfl, rfl⟩
    rfl
  · rintro rfl
    exact ⟨_, rfl, rfl⟩

end

/-- A target that a word of 32 bits can hold. -/
def Reaches (address : Nat) (distance : Int) (target : Nat) : Prop :=
  Leads address distance target ∧ target < 2 ^ 32

variable {bytes rest : Bytes}

theorem resolveM_ok {address t distance} :
    resolveM address distance bytes = .ok (t, rest) ↔ Reaches address distance t ∧ bytes = rest := by
  unfold resolveM resolve Reaches Leads
  simp only [bind, Except.bind]
  by_cases h : (address : Int) + distance < 0 ∨ 4294967295 < (address : Int) + distance
  · rw [if_pos h]
    simp only [reduceCtorEq, false_iff]
    omega
  · rw [if_neg h]
    simp only [pure, Except.pure, Except.ok.injEq, Prod.mk.injEq]
    exact and_congr_left fun _ => by omega

def InWords (op : Operation Nat) : Prop := ∀ t ∈ op.targets, t < 2 ^ 32

theorem inWords_of_targets {op} (h : op.targets = []) : InWords op := by simp [InWords, h]

section

variable {address : Nat}

open Decoder

/-! ## Switches -/

theorem length_eq_padding {pad} : pad.length = padding address ↔ IsPadding address pad := by
  unfold padding IsPadding
  omega

variable {op : Operation Nat}

theorem rows_ok {ρ σ row write width} {f : ρ → Decoder σ}
    {R} (hrow : ∀ bytes a rest, row bytes = some (a, rest) ↔ True ∧ bytes = write a ++ rest)
    (hwidth : ∀ a, (write a).length = width)
    (hf : ∀ a bytes b rest, f a bytes = .ok (b, rest) ↔ R a b ∧ bytes = rest) {count} {build : List σ → Operation Nat} :
    ((get : Decoder Bytes) >>= fun b => if b.length < count * width then fail fault else do
        let rows ← operand address (Reader.times count row)
        let out ← rows.mapM f
        return build out) bytes = .ok (op, rest) ↔
      ∃ rows out, rows.length = count ∧ List.Forall₂ R rows out ∧ build out = op ∧
        bytes = rows.flatMap write ++ rest := by
  have hd : ∀ bytes, (do
      let rows ← operand address (Reader.times count row)
      let out ← rows.mapM f
      return build out : Decoder (Operation Nat)) bytes = .ok (op, rest) ↔
        ∃ rows out, rows.length = count ∧ List.Forall₂ R rows out ∧ build out = op ∧
          bytes = rows.flatMap write ++ rest := by
    intro bytes
    simp only [bind_ok, operand_ok, times_eq_some_of_le (fun b a r _ => hrow b a r) (Nat.le_refl _),
      Decoder.mapM_ok hf, pure_ok]
    constructor
    · rintro ⟨rows, _, ⟨hcount, -, rfl⟩, out, _, ⟨hout, rfl⟩, rfl, rfl⟩
      exact ⟨rows, out, hcount, hout, rfl, rfl⟩
    · rintro ⟨rows, out, hcount, hout, rfl, rfl⟩
      exact ⟨rows, rest, ⟨hcount, fun _ _ => trivial, rfl⟩, out, rest, ⟨hout, rfl⟩, rfl, rfl⟩
  rw [guard_ok, hd]
  intro h
  obtain ⟨rows, out, rfl, -, -, rfl⟩ := (hd _).mp h
  rw [length_append, length_flatMap, map_congr_left fun a _ => hwidth a]
  simp

theorem tableSwitch_ok : tableSwitch address bytes = .ok (op, rest) ↔ ∃ pad default low high distances t ts,
      IsPadding address pad ∧ Reaches address (default : Int32).toInt t ∧ (low : Int32).toInt ≤ (high : Int32).toInt ∧
      (distances.length : Int) = high.toInt - low.toInt + 1 ∧
      List.Forall₂ (fun (d : Int32) t => Reaches address d.toInt t) distances ts ∧ .tableSwitch t low high ts = op ∧
      bytes = pad ++ (be32 default.toUInt32 ++ (be32 low.toUInt32 ++ (be32 high.toUInt32 ++
        (distances.flatMap (fun d => be32 d.toUInt32) ++ rest)))) := by
  unfold tableSwitch
  simp only [bind_ok, operand_ok, take_eq_some, int32_eq_some, resolveM_ok, length_eq_padding]
  have hrow : ∀ bytes (d : Int32) rest, int32 bytes = some (d, rest) ↔ True ∧ bytes = be32 d.toUInt32 ++ rest :=
    fun _ _ _ => by rw [int32_eq_some, true_and]
  have hwidth (d : Int32) : (be32 d.toUInt32).length = 4 := Bytes.length_be32 _
  have hf (d : Int32) (bytes : Bytes) (t : Nat) (rest : Bytes) :
      resolveM address d.toInt bytes = .ok (t, rest) ↔ Reaches address d.toInt t ∧ bytes = rest :=
    resolveM_ok
  constructor
  · rintro ⟨pad, _, ⟨hpad, rfl⟩, default, _, rfl, t, _, ⟨ht, rfl⟩, low, _, rfl, high, mid, rfl, h⟩
    split at h
    · exact (fail_ok.mp h).elim
    · obtain ⟨distances, ts, hcount, hts, hop, rfl⟩ :=
        (rows_ok hrow hwidth hf).mp h
      exact ⟨pad, default, low, high, distances, t, ts, hpad, ht, by omega, by omega, hts, hop, rfl⟩
  · rintro ⟨pad, default, low, high, distances, t, ts, hpad, ht, hle, hcount, hts, hop, rfl⟩
    refine ⟨pad, _, ⟨hpad, rfl⟩, default, _, rfl, ?_⟩
    refine ⟨t, _, ⟨ht, rfl⟩, low, _, rfl, high, _, rfl, ?_⟩
    rw [if_neg (by omega)]
    exact (rows_ok hrow hwidth hf).mpr
      ⟨distances, ts, by omega, hts, hop, rfl⟩

theorem lookupSwitch_ok : lookupSwitch address bytes = .ok (op, rest) ↔ ∃ pad default count rows t ps,
      IsPadding address pad ∧ Reaches address (default : Int32).toInt t ∧ (rows.length : Int) = (count : Int32).toInt ∧
      List.Forall₂ (fun (r : Int32 × Int32) p => p.1 = r.1 ∧ Reaches address r.2.toInt p.2) rows ps ∧
      .lookupSwitch t ps = op ∧ bytes = pad ++ (be32 default.toUInt32 ++ (be32 count.toUInt32 ++
        (rows.flatMap (fun r => be32 r.1.toUInt32 ++ be32 r.2.toUInt32) ++ rest))) := by
  unfold lookupSwitch
  simp only [bind_ok, operand_ok, take_eq_some, int32_eq_some, resolveM_ok, length_eq_padding]
  have hrow : ∀ bytes (r : Int32 × Int32) rest, (Prod.mk <$> int32 <*> int32) bytes = some (r, rest) ↔
      True ∧ bytes = (be32 r.1.toUInt32 ++ be32 r.2.toUInt32) ++ rest := by
    intro bytes r rest
    simp only [seq_eq_some, map_eq_some, int32_eq_some, true_and]
    constructor
    · rintro ⟨_, _, ⟨key, rfl, rfl⟩, distance, rfl, rfl⟩
      rfl
    · rintro rfl
      exact ⟨_, _, ⟨r.1, rfl, rfl⟩, r.2, rfl, rfl⟩
  have hwidth (r : Int32 × Int32) : (be32 r.1.toUInt32 ++ be32 r.2.toUInt32).length = 8 := rfl
  have hf (r : Int32 × Int32) (bytes : Bytes) (p : Int32 × Nat) (rest : Bytes) :
      (do
        let target ← resolveM address r.2.toInt
        return (r.1, target) : Decoder (Int32 × Nat)) bytes = .ok (p, rest) ↔
        (p.1 = r.1 ∧ Reaches address r.2.toInt p.2) ∧ bytes = rest := by
    simp only [bind_ok, resolveM_ok, pure_ok]
    grind
  constructor
  · rintro ⟨pad, _, ⟨hpad, rfl⟩, default, _, rfl, t, _, ⟨ht, rfl⟩, count, mid, rfl, h⟩
    split at h
    · exact (fail_ok.mp h).elim
    · obtain ⟨rows, ps, hcount, hps, hop, rfl⟩ := (rows_ok hrow hwidth hf).mp h
      exact ⟨pad, default, count, rows, t, ps, hpad, ht, by omega, hps, hop, rfl⟩
  · rintro ⟨pad, default, count, rows, t, ps, hpad, ht, hcount, hps, hop, rfl⟩
    refine ⟨pad, _, ⟨hpad, rfl⟩, default, _, rfl, t, _, ⟨ht, rfl⟩, count, _, rfl, ?_⟩
    rw [if_neg (by omega)]
    exact (rows_ok hrow hwidth hf).mpr ⟨rows, ps, by omega, hps, hop, rfl⟩

/-! ## Operands -/

variable {b : UInt8}

theorem operands_plain (h : (b, op) ∈ plainForms) : operands address b = pure op := by
  simp only [operands, bareOperation?_eq_some.mpr h]

theorem operands_indexed : ∀ p ∈ indexForms, operands address p.1 = (do
    let index ← operand address Reader.u16
    return p.2 index) := by
  intro p hp
  fin_cases hp <;> rfl

theorem operands_slotted : ∀ p ∈ slotForms, operands address p.1 = (do
    let slot ← operand address Reader.u8
    return p.2 slot.toUInt16) := by
  intro p hp
  fin_cases hp <;> rfl

theorem operands_branch : ∀ p ∈ branchForms, operands address p.1 = (do
    let distance ← operand address int16
    p.2 <$> resolveM address distance.toInt) := by
  intro p hp
  have hnone : bareOperation? p.1.toNat = none ∧ indexed? p.1.toNat = none ∧ slotted? p.1.toNat = none := by
    fin_cases hp <;> exact ⟨rfl, rfl, rfl⟩
  simp only [operands, hnone, branching?_eq_some.mpr hp]

theorem operands_farBranch : ∀ p ∈ farBranchForms, operands address p.1 = (do
    let distance ← operand address int32
    p.2 <$> resolveM address distance.toInt) := by
  intro p hp
  fin_cases hp <;> rfl

theorem forall₂_and_right {α β} {R : α → β → Prop} {p : β → Prop} {as bs} :
    List.Forall₂ (fun a b => R a b ∧ p b) as bs ↔ List.Forall₂ R as bs ∧ ∀ b ∈ bs, p b := by
  induction as generalizing bs with
  | nil => simp +contextual
  | cons a as ih =>
      simp only [forall₂_cons_left_iff, ih]
      constructor
      · rintro ⟨b, bs, ⟨hab, hb⟩, ⟨has, hbs⟩, rfl⟩
        exact ⟨⟨b, bs, hab, has, rfl⟩, forall_mem_cons.mpr ⟨hb, hbs⟩⟩
      · rintro ⟨⟨b, bs, hab, has, rfl⟩, h⟩
        obtain ⟨hb, hbs⟩ := forall_mem_cons.mp h
        exact ⟨b, bs, ⟨hab, hb⟩, ⟨has, hbs⟩, rfl⟩

def Takes (address : Nat) (b : UInt8) (d : Decoder (Operation Nat)) : Prop :=
  ∀ ⦃op bytes rest⦄, d bytes = .ok (op, rest) →
    ∃ front, Operands address b op front ∧ InWords op ∧ bytes = front ++ rest

section

variable {α : Type} {r : Reader α} {write : α → Bytes}

variable (hr : ∀ bytes a rest, r bytes = some (a, rest) ↔ bytes = write a ++ rest)

include hr

theorem takes_operand {f : α → Operation Nat}
    (hf : ∀ a, Operands address b (f a) (write a)) (hw : ∀ a, (f a).targets = []) : Takes address b (do
      let a ← operand address r
      return f a) := by
  intro op bytes rest h
  simp only [bind_ok, operand_ok, hr] at h
  obtain ⟨a, _, rfl, rfl, rfl⟩ := h
  exact ⟨_, hf a, inWords_of_targets (hw a), rfl⟩

theorem takes_branch {f : Nat → Operation Nat} {toInt : α → Int}
    (hf : ∀ a t, Leads address (toInt a) t → Operands address b (f t) (write a)) (hw : ∀ t, (f t).targets = [t]) :
    Takes address b (do
      let a ← operand address r
      f <$> resolveM address (toInt a)) := by
  intro op bytes rest h
  simp only [bind_ok, operand_ok, hr, map_ok, resolveM_ok] at h
  obtain ⟨a, _, rfl, t, ⟨ht, rfl⟩, rfl⟩ := h
  refine ⟨_, hf a t ht.1, ?_, rfl⟩
  rw [InWords, hw]
  simpa using ht.2

end

theorem takes_tableSwitch : Takes address 0xaa (tableSwitch address) := by
  intro op bytes rest h
  obtain ⟨pad, default, low, high, distances, t, ts, hpad, ht, hle, hcount, hts, rfl, rfl⟩ :=
    tableSwitch_ok.mp h
  obtain ⟨hts, hin⟩ := forall₂_and_right.mp hts
  exact ⟨_, .tableSwitch hpad ht.1 hcount hle hts, forall_mem_cons.mpr ⟨ht.2, hin⟩,
    by simp only [append_assoc]⟩

theorem takes_lookupSwitch : Takes address 0xab (lookupSwitch address) := by
  intro op bytes rest h
  obtain ⟨pad, default, count, rows, t, ps, hpad, ht, hcount, hps, rfl, rfl⟩ := lookupSwitch_ok.mp h
  simp only [Reaches, ← and_assoc] at hps
  obtain ⟨hps, hin⟩ := forall₂_and_right.mp hps
  exact ⟨_, .lookupSwitch hpad ht.1 hcount hps,
    forall_mem_cons.mpr ⟨ht.2, forall_mem_map.mpr hin⟩, by simp only [append_assoc]⟩

theorem takes_operands (b : UInt8) : Takes address b (operands address b) := by
  unfold operands
  dsimp only
  split
  · rename_i hop
    have hop := bareOperation?_eq_some.mp hop
    rintro _ _ _ h
    obtain ⟨rfl, rfl⟩ := pure_ok.mp h
    exact ⟨[], .plain hop, inWords_of_targets (plainForms_sound _ hop).2, rfl⟩
  · rename_i hf _
    have hf := indexed?_eq_some.mp hf
    exact takes_operand (fun _ _ _ => u16_eq_some) (.indexed hf) (targets_indexed _ hf)
  · rename_i hf _ _
    have hf := slotted?_eq_some.mp hf
    exact takes_operand (fun _ _ _ => u8_eq_some) (.slotted hf) fun _ => targets_slotted _ hf _
  · rename_i hf _ _ _
    have hf := branching?_eq_some.mp hf
    exact takes_branch (fun _ _ _ => int16_eq_some) (fun d _ => .branch hf d) (targets_branch _ hf)
  · rename_i hf _ _ _ _
    have hf := farBranching?_eq_some.mp hf
    exact takes_branch (fun _ _ _ => int32_eq_some) (fun d _ => .farBranch hf d) (targets_farBranch _ hf)
  · split
    · obtain rfl : b = 0x10 := UInt8.toNat_inj.mp ‹_›
      exact takes_operand (fun _ _ _ => int8_eq_some) .pushByte fun _ => rfl
    · obtain rfl : b = 0x11 := UInt8.toNat_inj.mp ‹_›
      exact takes_operand (fun _ _ _ => int16_eq_some) .pushShort fun _ => rfl
    · obtain rfl : b = 0x12 := UInt8.toNat_inj.mp ‹_›
      exact takes_operand (fun _ _ _ => u8_eq_some) .loadConst fun _ => rfl
    · obtain rfl : b = 0x84 := UInt8.toNat_inj.mp ‹_›
      rintro _ _ _ h
      simp only [bind_ok, operand_ok, u8_eq_some, int8_eq_some] at h
      obtain ⟨slot, _, rfl, amount, _, rfl, rfl, rfl⟩ := h
      exact ⟨_, .increment slot amount, inWords_of_targets rfl, rfl⟩
    · obtain rfl : b = 0xaa := UInt8.toNat_inj.mp ‹_›
      exact takes_tableSwitch
    · obtain rfl : b = 0xab := UInt8.toNat_inj.mp ‹_›
      exact takes_lookupSwitch
    · obtain rfl : b = 0xb9 := UInt8.toNat_inj.mp ‹_›
      rintro _ _ _ h
      simp only [bind_ok, operand_ok, u8_eq_some, u16_eq_some] at h
      obtain ⟨index, _, rfl, count, _, rfl, reserved, _, rfl, rfl, rfl⟩ := h
      exact ⟨_, .invokeInterface index count reserved, inWords_of_targets rfl, rfl⟩
    · obtain rfl : b = 0xba := UInt8.toNat_inj.mp ‹_›
      rintro _ _ _ h
      simp only [bind_ok, operand_ok, u16_eq_some] at h
      obtain ⟨index, _, rfl, reserved, _, rfl, rfl, rfl⟩ := h
      exact ⟨_, .invokeDynamic index reserved, inWords_of_targets rfl, rfl⟩
    · obtain rfl : b = 0xbc := UInt8.toNat_inj.mp ‹_›
      exact takes_operand (fun _ _ _ => u8_eq_some) .newArray fun _ => rfl
    · obtain rfl : b = 0xc5 := UInt8.toNat_inj.mp ‹_›
      rintro _ _ _ h
      simp only [bind_ok, operand_ok, u8_eq_some, u16_eq_some] at h
      obtain ⟨index, _, rfl, dimensions, _, rfl, rfl, rfl⟩ := h
      exact ⟨_, .newMultiArray index dimensions, inWords_of_targets rfl, rfl⟩
    · rintro _ _ _ h
      exact (fail_ok.mp h).elim

theorem operands_complete {front} (h : Operands address b op front) (hw : InWords op) (rest : Bytes) :
    operands address b (front ++ rest) = .ok (op, rest) := by
  cases h with
  | plain h =>
      rw [operands_plain h]
      rfl
  | indexed h index =>
      rw [operands_indexed _ h]
      exact bind_ok.mpr ⟨index, rest, operand_ok.mpr (u16_eq_some.mpr rfl), rfl⟩
  | slotted h slot =>
      rw [operands_slotted _ h]
      rfl
  | branch h distance ht =>
      have hin := hw _ (by rw [targets_branch _ h]; exact mem_singleton_self _)
      rw [operands_branch _ h]
      exact bind_ok.mpr ⟨distance, rest, operand_ok.mpr (int16_eq_some.mpr rfl),
        map_ok.mpr ⟨_, resolveM_ok.mpr ⟨⟨ht, hin⟩, rfl⟩, rfl⟩⟩
  | farBranch h distance ht =>
      have hin := hw _ (by rw [targets_farBranch _ h]; exact mem_singleton_self _)
      rw [operands_farBranch _ h]
      exact bind_ok.mpr ⟨distance, rest, operand_ok.mpr (int32_eq_some.mpr rfl),
        map_ok.mpr ⟨_, resolveM_ok.mpr ⟨⟨ht, hin⟩, rfl⟩, rfl⟩⟩
  | pushByte value => rfl
  | pushShort value =>
      exact bind_ok.mpr ⟨value, rest, operand_ok.mpr (int16_eq_some.mpr rfl), rfl⟩
  | loadConst index | increment slot amount => rfl
  | tableSwitch hpad hdefault hcount hle hts =>
      obtain ⟨ht, hts'⟩ := forall_mem_cons.mp hw
      exact tableSwitch_ok.mpr ⟨_, _, _, _, _, _, _, hpad, ⟨hdefault, ht⟩, hle, hcount,
        forall₂_and_right.mpr ⟨hts, hts'⟩, rfl, by simp only [append_assoc]⟩
  | lookupSwitch hpad hdefault hcount hps =>
      obtain ⟨ht, hps'⟩ := forall_mem_cons.mp hw
      have hps' := forall₂_and_right.mpr ⟨hps, forall_mem_map.mp hps'⟩
      exact lookupSwitch_ok.mpr ⟨_, _, _, _, _, _, hpad, ⟨hdefault, ht⟩, hcount,
        hps'.imp fun _ _ h => ⟨h.1.1, h.1.2, h.2⟩, rfl, by simp only [append_assoc]⟩
  | invokeInterface index count reserved =>
      exact bind_ok.mpr ⟨index, _, operand_ok.mpr (u16_eq_some.mpr (append_assoc ..)), rfl⟩
  | invokeDynamic index reserved =>
      refine bind_ok.mpr ⟨index, _, operand_ok.mpr (u16_eq_some.mpr (append_assoc ..)), ?_⟩
      exact bind_ok.mpr ⟨reserved, rest, operand_ok.mpr (u16_eq_some.mpr rfl), rfl⟩
  | newArray code => rfl
  | newMultiArray index dimensions =>
      exact bind_ok.mpr ⟨index, _, operand_ok.mpr (u16_eq_some.mpr (append_assoc ..)), rfl⟩

theorem operands_ok : operands address b bytes = .ok (op, rest) ↔
    ∃ front, Operands address b op front ∧ InWords op ∧ bytes = front ++ rest := by
  constructor
  · intro h
    exact takes_operands b h
  · rintro ⟨front, hfront, hw, rfl⟩
    exact operands_complete hfront hw rest

theorem wideForm_ok : wideForm address bytes = .ok ((b, op), rest) ↔
    ∃ front, WideOperands b op front ∧ InWords op ∧ bytes = front ++ rest := by
  unfold wideForm
  simp only [bind_ok, operand_ok, u8_eq_some, u16_eq_some]
  constructor
  · rintro ⟨b', _, rfl, slot, mid, rfl, h⟩
    cases hf : slotted? b'.toNat with
    | some f =>
        rw [hf] at h
        have hf := slotted?_eq_some.mp hf
        obtain ⟨hb, rfl⟩ := pure_ok.mp h
        cases hb
        exact ⟨_, .slotted hf slot, inWords_of_targets (targets_slotted _ hf slot), rfl⟩
    | none =>
        simp only [hf] at h
        split at h
        · rename_i hb
          subst hb
          simp only [bind_ok, operand_ok, int16_eq_some, pure_ok] at h
          obtain ⟨amount, _, rfl, hb, rfl⟩ := h
          cases hb
          exact ⟨_, .increment slot amount, inWords_of_targets rfl, by simp⟩
        · exact (fail_ok.mp h).elim
  · rintro ⟨front, hfront, -, rfl⟩
    cases hfront with
    | slotted h slot =>
        refine ⟨b, _, rfl, slot, rest, rfl, ?_⟩
        rw [slotted?_eq_some.mpr h]
        rfl
    | increment slot amount =>
        refine ⟨0x84, _, rfl, slot, _, append_assoc .., ?_⟩
        exact bind_ok.mpr ⟨amount, rest, operand_ok.mpr (int16_eq_some.mpr rfl), rfl⟩

theorem not_operands_wide {front} (h : Operands address 0xc4 op front) (hw : InWords op) : False := by
  have hfail : operands address 0xc4 = fail (.unknownOpcode address 0xc4) := rfl
  have hok := operands_complete h hw []
  rw [hfail] at hok
  exact fail_ok.mp hok

theorem operation_ok : operation address bytes = .ok ((b, op), rest) ↔
    ∃ front, Encodes address b op front ∧ InWords op ∧ bytes = front ++ rest := by
  unfold operation
  simp only [bind_ok, operand_ok, u8_eq_some]
  constructor
  · rintro ⟨b', mid, rfl, h⟩
    split at h
    · rename_i hb
      subst hb
      obtain ⟨front, hfront, hw, rfl⟩ := wideForm_ok.mp h
      exact ⟨_, .wide hfront, hw, rfl⟩
    · simp only [bind_ok, operands_ok, pure_ok] at h
      obtain ⟨op, _, ⟨front, hfront, hw, rfl⟩, hb, rfl⟩ := h
      cases hb
      exact ⟨_, .narrow hfront, hw, rfl⟩
  · rintro ⟨front, hfront, hw, rfl⟩
    cases hfront with
    | @narrow front h =>
        have hb : b ≠ 0xc4 := by
          rintro rfl
          exact not_operands_wide h hw
        refine ⟨b, front ++ rest, rfl, ?_⟩
        rw [if_neg hb]
        exact bind_ok.mpr ⟨op, rest, operands_complete h hw rest, rfl⟩
    | @wide front h =>
        refine ⟨0xc4, front ++ rest, rfl, ?_⟩
        exact wideForm_ok.mpr ⟨front, h, hw, rfl⟩

end

end JvmLift.Instruction

import JvmLift.Instruction.Decode

/-!
# Decoded code is contiguous

Whatever is read is taken from the front, and every instruction takes its opcode at least. So the
instructions of a code array follow each other without gaps.
-/
namespace JvmLift

open List

/-! ## Readers take from the front -/

namespace Reader

variable {α β : Type} {r : Reader α}

def Advances (r : Reader α) : Prop := ∀ bytes a rest, r bytes = some (a, rest) → rest <:+ bytes

theorem Advances.pure (a : α) : Advances (pure a) := by
  intro bytes b rest h
  cases h
  exact suffix_rfl

theorem Advances.bind (h : Advances r) {f : α → Reader β} (hf : ∀ a, Advances (f a)) : Advances (r >>= f) := by
  intro bytes b rest hb
  obtain ⟨⟨a, mid⟩, ha, hb⟩ := Option.bind_eq_some_iff.mp hb
  exact (hf a _ _ _ hb).trans (h _ _ _ ha)

theorem Advances.map (h : Advances r) (f : α → β) : Advances (f <$> r) :=
  h.bind fun a => .pure (f a)

theorem advances_u8 : Advances u8 := by
  intro bytes b rest h
  cases bytes with
  | nil => cases h
  | cons b rest =>
      cases h
      exact suffix_cons ..

theorem advances_u16 : Advances u16 := advances_u8.bind fun _ => advances_u8.bind fun _ => .pure _

theorem advances_u32 : Advances u32 := advances_u16.bind fun _ => advances_u16.bind fun _ => .pure _

theorem advances_take (n : Nat) : Advances (take n) := by
  intro bytes b rest h
  unfold take at h
  split at h
  · cases h
    exact drop_suffix ..
  · cases h

theorem advances_times (n : Nat) (h : Advances r) : Advances (times n r) := by
  induction n with
  | zero => exact .pure _
  | succ n ih => exact h.bind fun _ => ih.bind fun _ => .pure _

end Reader

namespace Instruction

open Reader (Advances advances_u8 advances_u16 advances_u32)

theorem advances_int8 : Advances int8 := advances_u8.map _

theorem advances_int16 : Advances int16 := advances_u16.map _

theorem advances_int32 : Advances int32 := advances_u32.map _

variable {bytes rest : Bytes}

namespace Decoder

variable {α β : Type} {d : Decoder α}

def Advances (d : Decoder α) : Prop := ∀ bytes a rest, d bytes = .ok (a, rest) → rest <:+ bytes

variable {f : α → Decoder β}

theorem bind_ok {b} : (d >>= f) bytes = .ok (b, rest) ↔ ∃ a mid, d bytes = .ok (a, mid) ∧ f a mid = .ok (b, rest) := by
  change Except.bind (d bytes) (fun p => f p.1 p.2) = _ ↔ _
  cases hd : d bytes with
  | error e => simp [Except.bind]
  | ok p =>
      obtain ⟨a, mid⟩ := p
      simp [Except.bind, and_assoc]

theorem Advances.pure (a : α) : Advances (pure a) := by
  intro bytes b rest h
  cases h
  exact suffix_rfl

theorem Advances.bind (h : Advances d) (hf : ∀ a, Advances (f a)) : Advances (d >>= f) := by
  intro bytes b rest hb
  obtain ⟨a, mid, ha, hb⟩ := bind_ok.mp hb
  exact (hf a _ _ _ hb).trans (h _ _ _ ha)

theorem Advances.map (h : Advances d) (f : α → β) : Advances (f <$> d) :=
  h.bind fun a => .pure (f a)

theorem Advances.get : Advances get := by
  intro bytes b rest h
  cases h
  exact suffix_rfl

theorem Advances.fail (fault : DecodeFault) : Advances (fail fault (α := α)) := nofun

theorem Advances.operand {r : Reader α} (h : Reader.Advances r) (address : Nat) : Advances (operand address r) := by
  intro bytes a rest ha
  unfold Decoder.operand at ha
  split at ha
  · rename_i p hp
    cases ha
    exact h _ _ _ hp
  · cases ha

theorem Advances.resolveM (address : Nat) (distance : Int) : Advances (resolveM address distance) := by
  intro bytes t rest h
  unfold Instruction.resolveM at h
  cases hr : resolve address distance with
  | error e =>
      rw [hr] at h
      cases h
  | ok t =>
      rw [hr] at h
      cases h
      exact suffix_rfl

theorem Advances.mapM (hf : ∀ a, Advances (f a)) (as : List α) : Advances (as.mapM f) := by
  induction as with
  | nil => exact .pure []
  | cons a as ih =>
      rw [mapM_cons]
      exact (hf a).bind fun _ => ih.bind fun _ => .pure _

theorem Advances.ite {c} [Decidable c] {d'} (h : Advances d) (h' : Advances d') : Advances (if c then d else d') := by
  split
  · exact h
  · exact h'

end Decoder

open Decoder (Advances operand)

theorem advances_tableSwitch (address : Nat) : Advances (tableSwitch address) := by
  refine .bind (.operand (Reader.advances_take _) _) fun _ => ?_
  refine .bind (.operand advances_int32 _) fun _ => ?_
  refine .bind (.resolveM _ _) fun _ => ?_
  refine .bind (.operand advances_int32 _) fun _ => .bind (.operand advances_int32 _) fun _ => ?_
  refine .ite (.fail _) (.bind .get fun _ => .ite (.fail _) ?_)
  refine .bind (.operand (Reader.advances_times _ advances_int32) _) fun _ => ?_
  exact .bind (.mapM (fun _ => .resolveM _ _) _) fun _ => .pure _

theorem advances_lookupSwitch (address : Nat) : Advances (lookupSwitch address) := by
  have hrow : Reader.Advances (Prod.mk <$> int32 <*> int32) :=
    (advances_int32.map _).bind fun _ => advances_int32.bind fun _ => .pure _
  refine .bind (.operand (Reader.advances_take _) _) fun _ => ?_
  refine .bind (.operand advances_int32 _) fun _ => ?_
  refine .bind (.resolveM _ _) fun _ => ?_
  refine .bind (.operand advances_int32 _) fun _ => .ite (.fail _) (.bind .get fun _ => .ite (.fail _) ?_)
  refine .bind (.operand (Reader.advances_times _ hrow) _) fun _ => ?_
  exact .bind (.mapM (fun _ => .bind (.resolveM _ _) fun _ => .pure _) _) fun _ => .pure _

theorem advances_wideForm (address : Nat) : Advances (wideForm address) := by
  refine .bind (.operand advances_u8 _) fun _ => .bind (.operand advances_u16 _) fun _ => ?_
  split
  · exact .pure _
  · exact .ite (.bind (.operand advances_int16 _) fun _ => .pure _) (.fail _)

theorem advances_operands (address : Nat) (opcode : UInt8) : Advances (operands address opcode) := by
  unfold operands
  dsimp only
  split
  · exact .pure _
  · exact .bind (.operand advances_u16 _) fun _ => .pure _
  · exact .bind (.operand advances_u8 _) fun _ => .pure _
  · exact .bind (.operand advances_int16 _) fun _ => .map (.resolveM _ _) _
  · exact .bind (.operand advances_int32 _) fun _ => .map (.resolveM _ _) _
  · split
    · exact .bind (.operand advances_int8 _) fun _ => .pure _
    · exact .bind (.operand advances_int16 _) fun _ => .pure _
    · exact .bind (.operand advances_u8 _) fun _ => .pure _
    · exact .bind (.operand advances_u8 _) fun _ => .bind (.operand advances_int8 _) fun _ => .pure _
    · exact advances_tableSwitch address
    · exact advances_lookupSwitch address
    · exact .bind (.operand advances_u16 _) fun _ => .bind (.operand advances_u8 _) fun _ =>
        .bind (.operand advances_u8 _) fun _ => .pure _
    · exact .bind (.operand advances_u16 _) fun _ => .bind (.operand advances_u16 _) fun _ => .pure _
    · exact .bind (.operand advances_u8 _) fun _ => .pure _
    · exact .bind (.operand advances_u16 _) fun _ => .bind (.operand advances_u8 _) fun _ => .pure _
    · exact .fail _

variable {address : Nat}

theorem operation_shortens {result} (h : operation address bytes = .ok (result, rest)) :
    rest.length < bytes.length := by
  obtain ⟨opcode, mid, hopcode, h⟩ := Decoder.bind_ok.mp h
  have hmid : mid.length < bytes.length := by
    cases bytes with
    | nil => cases hopcode
    | cons b bytes =>
        cases hopcode
        exact Nat.lt_succ_self _
  have hrest : rest <:+ mid :=
    Advances.ite (advances_wideForm address)
      ((advances_operands address opcode).bind fun op => .pure (opcode, op)) _ _ _ h
  exact Nat.lt_of_le_of_lt hrest.length_le hmid

/-! ## Code -/

/-- Every instruction starts where the one before it ends, and takes a byte at least. -/
def Contiguous : Nat → List Instruction → Prop
  | _, [] => True
  | start, i :: rest => i.offset = start ∧ i.offset < i.next ∧ Contiguous i.next rest

def codeEnd (start : Nat) (code : List Instruction) : Nat := (code.getLast?.map (·.next)).getD start

theorem codeEnd_cons (start : Nat) (i : Instruction) (rest : List Instruction) :
    codeEnd start (i :: rest) = codeEnd i.next rest := by
  cases rest with
  | nil => rfl
  | cons j rest => rfl

theorem codeEnd_append (start : Nat) (code code' : List Instruction) :
    codeEnd start (code ++ code') = codeEnd (codeEnd start code) code' := by
  induction code generalizing start with
  | nil => rfl
  | cons i rest ih => rw [cons_append, codeEnd_cons, ih, codeEnd_cons]

variable {code : List Instruction}

theorem contiguous_append {start code'} :
    Contiguous start (code ++ code') ↔ Contiguous start code ∧ Contiguous (codeEnd start code) code' := by
  induction code generalizing start with
  | nil => simp [Contiguous, codeEnd]
  | cons i rest ih => simp [Contiguous, codeEnd_cons, ih, and_assoc]

namespace Contiguous

variable {start : Nat} {code : List Instruction}

variable (h : Contiguous start code)

include h

theorem le_codeEnd : start ≤ codeEnd start code := by
  induction code generalizing start with
  | nil => exact Nat.le_refl _
  | cons i rest ih =>
      obtain ⟨rfl, hlt, hrest⟩ := h
      rw [codeEnd_cons]
      exact Nat.le_trans (Nat.le_of_lt hlt) (ih hrest)

theorem bounds {i} (hi : i ∈ code) : start ≤ i.offset ∧ i.offset < i.next ∧ i.next ≤ codeEnd start code := by
  induction code generalizing start with
  | nil => cases hi
  | cons j rest ih =>
      obtain ⟨rfl, hlt, hrest⟩ := h
      rw [codeEnd_cons]
      rcases mem_cons.mp hi with rfl | hi
      · exact ⟨Nat.le_refl _, hlt, hrest.le_codeEnd⟩
      · obtain ⟨hlo, hmid, hhi⟩ := ih hrest hi
        exact ⟨by omega, hmid, hhi⟩

theorem of_subrun {part} (hp : part <:+: code) : ∃ start', Contiguous start' part := by
  obtain ⟨before, after, rfl⟩ := hp
  exact ⟨_, (contiguous_append.mp (contiguous_append.mp h).1).2⟩

end Contiguous

theorem decodeAt_ok {codeLength i} (h : decodeAt codeLength address bytes = .ok (i, rest)) :
    i.offset = address ∧ i.offset < i.next ∧ i.next + rest.length = address + bytes.length := by
  unfold decodeAt at h
  cases hop : operation address bytes with
  | error e =>
      rw [hop] at h
      cases h
  | ok p =>
      obtain ⟨⟨opcode, op⟩, rest'⟩ := p
      have hlt := operation_shortens hop
      simp only [hop, bind, Except.bind] at h
      split at h
      · cases h
      · cases h
        refine ⟨rfl, Nat.lt_add_of_pos_right (Nat.sub_pos_of_lt hlt), ?_⟩
        show address + (bytes.length - rest.length) + rest.length = address + bytes.length
        omega

theorem contiguous_decodeUpTo {codeLength n} (h : decodeUpTo codeLength n address bytes = .ok code) :
    Contiguous address code := by
  induction n generalizing address bytes code with
  | zero =>
      cases h
      trivial
  | succ n ih =>
      cases bytes with
      | nil =>
          cases h
          trivial
      | cons b bytes =>
          rw [decodeUpTo] at h
          · cases hi : decodeAt codeLength address (b :: bytes) with
            | error e =>
                rw [hi] at h
                cases h
            | ok p =>
                obtain ⟨i, rest⟩ := p
                simp only [hi, bind, Except.bind] at h
                cases his : decodeUpTo codeLength n i.next rest with
                | error e =>
                    rw [his] at h
                    cases h
                | ok is =>
                    rw [his] at h
                    cases h
                    exact ⟨(decodeAt_ok hi).1, (decodeAt_ok hi).2.1, ih his⟩
          · exact nofun

theorem contiguous_decodeAll (h : decodeAll bytes = .ok code) : Contiguous 0 code :=
  contiguous_decodeUpTo h

end Instruction

end JvmLift

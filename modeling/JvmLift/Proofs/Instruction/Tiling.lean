import JvmLift.Proofs.Instruction.Accepts

/-!
# Code arrays are written instructions

Decoding an offset accepts the instruction that stands there, and decoding a whole code array accepts
what is written as one instruction behind the other.
-/
namespace JvmLift.Instruction

open List

section

variable {limit address : Nat} {bytes rest : Bytes} {i : Instruction}

theorem decodeAt_eq_ok (hlimit : limit < 2 ^ 32) :
    decodeAt limit address bytes = .ok (i, rest) ↔ ∃ front, Encodes address i.opcode i.op front ∧
      (∀ t ∈ i.op.targets, t < limit) ∧ i.offset = address ∧ i.length = front.length ∧ bytes = front ++ rest := by
  unfold decodeAt
  constructor
  · intro h
    cases hop : operation address bytes with
    | error e =>
        rw [hop] at h
        cases h
    | ok p =>
        obtain ⟨front, hfront, hw, rfl⟩ := operation_ok.mp hop
        simp only [hop, bind, Except.bind] at h
        split at h
        · cases h
        · rename_i hnone
          cases h
          refine ⟨front, hfront, fun t ht => ?_, rfl, by simp, rfl⟩
          simpa using find?_eq_none.mp hnone t ht
  · rintro ⟨front, hfront, ht, hoffset, hlength, rfl⟩
    have hw : InWords i.op := fun t h => Nat.lt_trans (ht t h) hlimit
    have hnone : i.op.targets.find? (limit ≤ ·) = none := by
      simpa [find?_eq_none] using ht
    simp only [operation_ok.mpr ⟨front, hfront, hw, rfl⟩, bind, Except.bind, hnone]
    obtain ⟨offset, b, length, op⟩ := i
    simp_all [pure, Except.pure]

theorem decode_eq_ok {code offset} (hcode : code.length < 2 ^ 32) :
    decode code offset = .ok i ↔ StandsAt code offset i := by
  unfold decode
  constructor
  · intro h
    split at h
    · cases hd : decodeAt code.length offset (code.drop offset) with
      | error e =>
          rw [hd] at h
          cases h
      | ok p =>
          obtain ⟨i', rest⟩ := p
          rw [hd] at h
          obtain rfl : i' = i := Except.ok.inj h
          obtain ⟨front, hfront, ht, rfl, hlength, hdrop⟩ := (decodeAt_eq_ok hcode).mp hd
          have hlen : code.length - i'.offset = front.length + rest.length := by
            rw [← length_drop, hdrop, length_append]
          have hextract : code.extract i'.offset i'.next = front := by
            rw [extract_eq_take_drop, hdrop, next, Nat.add_sub_cancel_left, hlength, take_left]
          exact ⟨rfl, by rw [next]; omega, by rwa [hextract], ht⟩
    · cases h
  · rintro ⟨rfl, hnext, henc, ht⟩
    rw [extract_eq_take_drop, next, Nat.add_sub_cancel_left] at henc
    rw [next] at hnext
    have hlen : ((code.drop i.offset).take i.length).length = i.length := by
      rw [length_take, length_drop]
      omega
    have hpos := length_pos_iff.mpr henc.ne_nil
    have hd : decodeAt code.length i.offset (code.drop i.offset) = .ok (i, (code.drop i.offset).drop i.length) :=
      (decodeAt_eq_ok hcode).mpr ⟨_, henc, ht, rfl, hlen.symm, (take_append_drop ..).symm⟩
    rw [if_pos (by omega), hd]
    rfl

variable {is : List Instruction}

theorem written_iff : Written limit address bytes is ↔
    (bytes = [] ∧ is = []) ∨ ∃ b op front rest is', Encodes address b op front ∧ (∀ t ∈ op.targets, t < limit) ∧
    Written limit (address + front.length) rest is' ∧ bytes = front ++ rest ∧
    is = ⟨address, b, front.length, op⟩ :: is' := by
  constructor
  · rintro (_ | ⟨h, ht, hrest⟩)
    · exact .inl ⟨rfl, rfl⟩
    · exact .inr ⟨_, _, _, _, _, h, ht, hrest, rfl, rfl⟩
  · rintro (⟨rfl, rfl⟩ | ⟨b, op, front, rest, is, h, ht, hrest, rfl, rfl⟩)
    · exact .nil
    · exact .cons h ht hrest

theorem written_nil : Except.ok [] = (.ok is : Except DecodeFault _) ↔ Written limit address [] is := by
  rw [written_iff]
  constructor
  · intro h
    exact .inl ⟨rfl, (Except.ok.inj h).symm⟩
  · rintro (⟨-, rfl⟩ | ⟨_, _, front, rest, _, h, -, -, hnil, -⟩)
    · rfl
    · exact absurd (append_eq_nil_iff.mp hnil.symm).1 h.ne_nil

variable {n : Nat}

theorem decodeUpTo_cons {b} : decodeUpTo limit (n + 1) address (b :: bytes) = .ok is ↔
    ∃ i rest is', decodeAt limit address (b :: bytes) = .ok (i, rest) ∧ decodeUpTo limit n i.next rest = .ok is' ∧
    is = i :: is' := by
  rw [decodeUpTo]
  · cases hi : decodeAt limit address (b :: bytes) with
    | error e => simp [bind, Except.bind]
    | ok p =>
        obtain ⟨i, rest⟩ := p
        cases his : decodeUpTo limit n i.next rest with
        | error e => simp [bind, Except.bind, his]
        | ok is' => simp [bind, Except.bind, his, pure, Except.pure, eq_comm]
  · simp

theorem codeEnd_decodeUpTo (hn : bytes.length ≤ n) (h : decodeUpTo limit n address bytes = .ok is) :
    codeEnd address is = address + bytes.length := by
  induction n generalizing address bytes is with
  | zero =>
      obtain rfl := eq_nil_of_length_eq_zero (Nat.le_zero.mp hn)
      cases h
      rfl
  | succ n ih =>
      cases bytes with
      | nil =>
          cases h
          rfl
      | cons b bytes =>
          obtain ⟨i, rest, is, hi, his, rfl⟩ := decodeUpTo_cons.mp h
          obtain ⟨hoffset, hlt, hnext⟩ := decodeAt_ok hi
          have hlen : rest.length ≤ n := by
            omega
          rw [codeEnd_cons, ih hlen his, hnext]

theorem codeEnd_decodeAll {code} (h : decodeAll code = .ok is) : codeEnd 0 is = code.length := by
  simpa using codeEnd_decodeUpTo (Nat.le_refl _) h

theorem decodeUpTo_eq_ok (hlimit : limit < 2 ^ 32) (hn : bytes.length ≤ n) :
    decodeUpTo limit n address bytes = .ok is ↔ Written limit address bytes is := by
  -- the number of steps is no limit, as each of them takes a byte
  induction n generalizing address bytes is with
  | zero =>
      obtain rfl := eq_nil_of_length_eq_zero (Nat.le_zero.mp hn)
      exact written_nil
  | succ n ih =>
      cases bytes with
      | nil => exact written_nil
      | cons b bytes =>
          rw [decodeUpTo_cons]
          constructor
          · rintro ⟨i, rest, is, hi, his, rfl⟩
            obtain ⟨front, hfront, ht, hoffset, hlength, hbytes⟩ := (decodeAt_eq_ok hlimit).mp hi
            have hpos := length_pos_iff.mpr hfront.ne_nil
            have hlen : rest.length ≤ n := by
              rw [hbytes, length_append] at hn
              omega
            have his := (ih hlen).mp his
            rw [next, hoffset, hlength] at his
            have hi' : i = ⟨address, i.opcode, front.length, i.op⟩ := by rw [← hoffset, ← hlength]
            rw [hbytes, hi']
            exact .cons hfront ht his
          · intro h
            rcases written_iff.mp h with ⟨hnil, -⟩ | ⟨b', op, front, rest, is, hfront, ht, hrest, hbytes, rfl⟩
            · cases hnil
            · have hpos := length_pos_iff.mpr hfront.ne_nil
              have hlen : rest.length ≤ n := by
                rw [hbytes, length_append] at hn
                omega
              exact ⟨⟨address, b', front.length, op⟩, rest, is,
                (decodeAt_eq_ok hlimit).mpr ⟨front, hfront, ht, rfl, rfl, hbytes⟩, (ih hlen).mpr hrest, rfl⟩

theorem Written.contiguous (h : Written limit address bytes is) :
    Contiguous address is ∧ codeEnd address is = address + bytes.length := by
  induction h with
  | nil => exact ⟨trivial, rfl⟩
  | cons h _ _ ih =>
      have hpos := length_pos_iff.mpr h.ne_nil
      obtain ⟨ihc, ihe⟩ := ih
      refine ⟨⟨rfl, Nat.lt_add_of_pos_right hpos, ihc⟩, ?_⟩
      rw [codeEnd_cons, length_append, ← Nat.add_assoc]
      exact ihe

end

/-- Decoding accepts exactly the written forms of instructions, at every offset and for a whole code
array, which its instructions then tile. -/
theorem decode_accepts_grammar {code : Bytes} (hcode : code.length < 2 ^ 32) :
    (∀ offset i, decode code offset = .ok i ↔ StandsAt code offset i) ∧
      ∀ is, (decodeAll code = .ok is ↔ Written code.length 0 code is) ∧
        (decodeAll code = .ok is → Contiguous 0 is ∧ codeEnd 0 is = code.length) := by
  refine ⟨fun offset i => decode_eq_ok hcode, fun is => ?_⟩
  have hall : decodeAll code = .ok is ↔ Written code.length 0 code is := decodeUpTo_eq_ok hcode (Nat.le_refl _)
  refine ⟨hall, fun h => ?_⟩
  simpa using (hall.mp h).contiguous

/-- A constant, a table switch behind two bytes of padding, and a return. -/
def paddedSwitch : Bytes :=
  [0x03, 0xaa, 0xff, 0x00, 0, 0, 0, 23, 0, 0, 0, 5, 0, 0, 0, 6, 0, 0, 0, 23, 0xff, 0xff, 0xff, 0xff, 0xb1]

theorem decode_accepts_paddedSwitch :
    paddedSwitch.length < 2 ^ 32 ∧ StandsAt paddedSwitch 1 ⟨1, 0xaa, 23, .tableSwitch 24 5 6 [24, 0]⟩ ∧
      ∃ is, Written 25 0 paddedSwitch is ∧ Contiguous 0 is ∧ codeEnd 0 is = 25 := by
  have hlen : paddedSwitch.length < 2 ^ 32 := by decide
  obtain ⟨hone, hall⟩ := decode_accepts_grammar hlen
  refine ⟨hlen, (hone _ _).mp rfl, ?_⟩
  have hok : decodeAll paddedSwitch = .ok [⟨0, 0x03, 1, .intConst 0⟩,
      ⟨1, 0xaa, 23, .tableSwitch 24 5 6 [24, 0]⟩, ⟨24, 0xb1, 1, .leave none⟩] := rfl
  exact ⟨_, (hall _).1.mp hok, (hall _).2 hok⟩

end JvmLift.Instruction

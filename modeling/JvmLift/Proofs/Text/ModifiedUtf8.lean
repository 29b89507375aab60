import JvmLift.Text.ModifiedUtf8

/-!
# Modified UTF-8 round-trips

Decoding gives back every encoded string, and encoding gives back every byte string of shortest
forms whose code units pair all surrogates.
-/
namespace JvmLift.ModifiedUtf8

open List

/-! ## Shortest forms and pairs -/

def IsTail (b : UInt8) : Prop := 0x80 ≤ b.toNat ∧ b.toNat < 0xC0

/-- The bytes are the shortest form of a code unit; zero has the two-byte form. -/
inductive Shortest : List UInt8 → Nat → Prop where
  | one {b : UInt8} (hpos : 0 < b.toNat) (hlt : b.toNat < 0x80) : Shortest [b] b.toNat
  | nul : Shortest [0xC0, 0x80] 0
  | two {b c : UInt8} {u : Nat} (hb : 0xC0 ≤ b.toNat) (hc : IsTail c)
      (hu : u = (b.toNat - 0xC0) * 64 + (c.toNat - 0x80)) (hle : 0x80 ≤ u) (hlt : u < 0x800) :
      Shortest [b, c] u
  | three {b c d : UInt8} {u : Nat} (hb : 0xE0 ≤ b.toNat) (hc : IsTail c) (hd : IsTail d)
      (hu : u = (b.toNat - 0xE0) * 4096 + (c.toNat - 0x80) * 64 + (d.toNat - 0x80))
      (hle : 0x800 ≤ u) (hlt : u < 0x10000) : Shortest [b, c, d] u

/-- A byte string made only of shortest forms, with the code units they stand for. -/
inductive Spells : List UInt8 → List Nat → Prop where
  | nil : Spells [] []
  | cons {form bytes : List UInt8} {u : Nat} {units : List Nat} (hform : Shortest form u)
      (hbytes : Spells bytes units) : Spells (form ++ bytes) (u :: units)

/-- No surrogate stands alone: every high one is followed by its low one. -/
inductive Paired : List Nat → Prop where
  | nil : Paired []
  | unit {u : Nat} {units : List Nat} (hhigh : isHigh u = false) (hlow : isLow u = false)
      (h : Paired units) : Paired (u :: units)
  | pair {u v : Nat} {units : List Nat} (hhigh : isHigh u = true) (hlow : isLow v = true)
      (h : Paired units) : Paired (u :: v :: units)

variable {form bytes : List UInt8} {u : Nat} {units : List Nat}

theorem Shortest.lt (h : Shortest form u) : u < 0x10000 := by
  cases h <;> omega

theorem Shortest.decodeUnits (h : Shortest form u) (rest : List UInt8) :
    decodeUnits (form ++ rest) = u :: decodeUnits rest := by
  cases h with
  | one hpos hlt =>
      rw [ModifiedUtf8.decodeUnits.eq_def]
      exact if_pos hlt
  | nul => simp [ModifiedUtf8.decodeUnits]
  | two hb hc hu hle hlt =>
      obtain ⟨hc, hc'⟩ := hc
      rw [cons_append, cons_append, ModifiedUtf8.decodeUnits,
        if_neg (by omega), if_pos (by omega)]
      exact congrArg (· :: _) (by omega)
  | three hb hc hd hu hle hlt =>
      obtain ⟨⟨hc, hc'⟩, hd, hd'⟩ := And.intro hc hd
      rw [cons_append, cons_append, ModifiedUtf8.decodeUnits, if_neg (by omega), if_neg (by omega), if_pos (by omega)]
      exact congrArg (· :: _) (by omega)

theorem Shortest.encodeUnit (h : Shortest form u) : encodeUnit u = form := by
  cases h with
  | one hpos hlt => simp [ModifiedUtf8.encodeUnit, hpos, hlt]
  | nul => rfl
  | @two b c _ hb hc hu hle hlt =>
      obtain ⟨hc, hc'⟩ := hc
      have hlead : 0xC0 + u / 64 = b.toNat := by omega
      have htail : 0x80 + u % 64 = c.toNat := by omega
      rw [ModifiedUtf8.encodeUnit, if_neg (by omega), if_pos hlt, hlead, htail, UInt8.ofNat_toNat,
        UInt8.ofNat_toNat]
  | @three b c d _ hb hc hd hu hle hlt =>
      obtain ⟨⟨hc, hc'⟩, hd, hd'⟩ := And.intro hc hd
      have hlead : 0xE0 + u / 4096 = b.toNat := by omega
      have hmiddle : 0x80 + u / 64 % 64 = c.toNat := by omega
      have htail : 0x80 + u % 64 = d.toNat := by omega
      rw [ModifiedUtf8.encodeUnit, if_neg (by omega), if_neg (by omega), hlead, hmiddle, htail,
        UInt8.ofNat_toNat, UInt8.ofNat_toNat, UInt8.ofNat_toNat]

theorem shortest_encodeUnit (h : u < 0x10000) : Shortest (encodeUnit u) u := by
  have byte : ∀ {n : Nat}, n < 256 → (UInt8.ofNat n).toNat = n := fun hn =>
    UInt8.toNat_ofNat_of_lt' hn
  unfold encodeUnit
  split
  · next hu =>
    have hb := byte (n := u) (by omega)
    have := Shortest.one (b := UInt8.ofNat u) (by omega) (by omega)
    rwa [hb] at this
  split
  · by_cases hu : u = 0
    · subst hu
      exact .nul
    · have hb := byte (n := 0xC0 + u / 64) (by omega)
      have hc := byte (n := 0x80 + u % 64) (by omega)
      exact .two (by omega) ⟨by omega, by omega⟩ (by omega) (by omega) (by omega)
  · have hb := byte (n := 0xE0 + u / 4096) (by omega)
    have hc := byte (n := 0x80 + u / 64 % 64) (by omega)
    have hd := byte (n := 0x80 + u % 64) (by omega)
    exact .three (by omega) ⟨by omega, by omega⟩ ⟨by omega, by omega⟩ (by omega) (by omega) h

theorem Spells.decodeUnits (h : Spells bytes units) : decodeUnits bytes = units := by
  induction h with
  | nil => simp [ModifiedUtf8.decodeUnits]
  | cons hform _ ih => rw [hform.decodeUnits, ih]

theorem Spells.encodeUnits (h : Spells bytes units) : units.flatMap encodeUnit = bytes := by
  induction h with
  | nil => rfl
  | cons hform _ ih => rw [flatMap_cons, hform.encodeUnit, ih]

theorem Spells.lt (h : Spells bytes units) : ∀ u ∈ units, u < 0x10000 := by
  induction h with
  | nil => simp
  | cons hform _ ih => exact forall_mem_cons.2 ⟨hform.lt, ih⟩

theorem spells_encodeUnits : (units : List Nat) → (∀ u ∈ units, u < 0x10000) → Spells (units.flatMap encodeUnit) units
  | [], _ => .nil
  | u :: units, h => by
      obtain ⟨hu, hunits⟩ := forall_mem_cons.1 h
      exact .cons (shortest_encodeUnit hu) (spells_encodeUnits units hunits)

/-! ## Surrogates -/

theorem isHigh_iff : isHigh u = true ↔ 0xD800 ≤ u ∧ u < 0xDC00 := by simp [isHigh]

theorem isLow_iff : isLow u = true ↔ 0xDC00 ≤ u ∧ u < 0xE000 := by simp [isLow]

theorem toNat_bounds (c : Char) : c.toNat < 0xD800 ∨ 0xDFFF < c.toNat ∧ c.toNat < 0x110000 := c.valid

theorem toNat_ofNat {n} (h : n.isValidChar) : (Char.ofNat n).toNat = n := by
  rw [Char.ofNat, dif_pos h]
  rfl

theorem lt_of_mem_unitsOf {c} (h : u ∈ unitsOf c) : u < 0x10000 := by
  have hc := toNat_bounds c
  unfold unitsOf at h
  split at h
  · simp_all
  · simp only [mem_cons, not_mem_nil, or_false] at h
    omega

theorem ofUnits_unitsOf (c : Char) (rest : List Nat) : ofUnits (unitsOf c ++ rest) = c :: ofUnits rest := by
  have hc := toNat_bounds c
  unfold unitsOf
  split
  · next hsmall =>
    have hhigh : ¬isHigh c.toNat = true := by rw [isHigh_iff]; omega
    have hlow : ¬isLow c.toNat = true := by rw [isLow_iff]; omega
    rw [cons_append, nil_append, ofUnits.eq_def]
    simp only [hhigh, hlow, Char.ofNat_toNat, Bool.false_eq_true, if_false]
  · next hlarge =>
    have hhigh : isHigh (0xD800 + (c.toNat - 0x10000) / 0x400) = true := by rw [isHigh_iff]; omega
    have hlow : isLow (0xDC00 + (c.toNat - 0x10000) % 0x400) = true := by rw [isLow_iff]; omega
    have hsum : 0x10000 + (0xD800 + (c.toNat - 0x10000) / 0x400 - 0xD800) * 0x400 +
        (0xDC00 + (c.toNat - 0x10000) % 0x400 - 0xDC00) = c.toNat := by omega
    rw [cons_append, cons_append, nil_append, ofUnits, if_pos hhigh, if_pos hlow, hsum,
      Char.ofNat_toNat]

theorem ofUnits_flatMap (cs : List Char) : ofUnits (cs.flatMap unitsOf) = cs := by
  induction cs with
  | nil => simp [ofUnits]
  | cons c cs ih => rw [flatMap_cons, ofUnits_unitsOf, ih]

theorem Paired.unitsOf (h : Paired units) (hlt : ∀ u ∈ units, u < 0x10000) :
    (ofUnits units).flatMap unitsOf = units := by
  induction h with
  | nil => simp [ofUnits]
  | @unit u units hhigh hlow _ ih =>
      obtain ⟨hu, hunits⟩ := forall_mem_cons.1 hlt
      have hvalid : u.isValidChar := by
        rw [← Bool.not_eq_true, isHigh_iff] at hhigh
        rw [← Bool.not_eq_true, isLow_iff] at hlow
        omega
      have hone : ModifiedUtf8.unitsOf (Char.ofNat u) = [u] := by
        rw [ModifiedUtf8.unitsOf, toNat_ofNat hvalid, if_pos hu]
      rw [ofUnits.eq_def]
      simp only [hhigh, hlow, Bool.false_eq_true, if_false, flatMap_cons, hone, ih hunits,
        cons_append, nil_append]
  | @pair u v units hhigh hlow _ ih =>
      obtain ⟨hu, hv, hunits⟩ := by simpa only [forall_mem_cons] using hlt
      rw [ofUnits, if_pos hhigh, if_pos hlow]
      rw [isHigh_iff] at hhigh
      rw [isLow_iff] at hlow
      have hvalid : (0x10000 + (u - 0xD800) * 0x400 + (v - 0xDC00)).isValidChar := by
        omega
      have htwo : ModifiedUtf8.unitsOf (Char.ofNat (0x10000 + (u - 0xD800) * 0x400 + (v - 0xDC00))) =
          [u, v] := by
        have hlead : 0xD800 + (0x10000 + (u - 0xD800) * 0x400 + (v - 0xDC00) - 0x10000) / 0x400 = u := by
          omega
        have htail : 0xDC00 + (0x10000 + (u - 0xD800) * 0x400 + (v - 0xDC00) - 0x10000) % 0x400 = v := by
          omega
        rw [ModifiedUtf8.unitsOf, toNat_ofNat hvalid, if_neg (by omega), hlead, htail]
      rw [flatMap_cons, htwo, ih hunits, cons_append, cons_append, nil_append]

/-! ## Round trips -/

theorem decode_inverts_encode : (∀ s : String, decode (encode s) = s) ∧
      ∀ (bytes : List UInt8) (units : List Nat), Spells bytes units → Paired units →
        encode (decode bytes) = bytes := by
  refine ⟨fun s => ?_, fun bytes units hbytes hunits => ?_⟩
  · have hlt : ∀ u ∈ s.toList.flatMap unitsOf, u < 0x10000 := fun u hu => by
      obtain ⟨c, -, hc⟩ := List.mem_flatMap.1 hu
      exact lt_of_mem_unitsOf hc
    rw [decode, encode, (spells_encodeUnits _ hlt).decodeUnits, ofUnits_flatMap, String.ofList_toList]
  · rw [encode, decode, hbytes.decodeUnits, String.toList_ofList, hunits.unitsOf hbytes.lt,
      hbytes.encodeUnits]

/-- NUL, the last one-byte unit, the first two-byte and three-byte units, and a surrogate pair. -/
theorem decode_inverts_encode_everyLength :
    let bytes := [0xC0, 0x80, 0x7F, 0xC2, 0x80, 0xE0, 0xA0, 0x80, 0xED, 0xA0, 0xBD, 0xED, 0xB8, 0x80]
    let units := [0, 0x7F, 0x80, 0x800, 0xD83D, 0xDE00]
    Spells bytes units ∧ Paired units ∧ encode (decode bytes) = bytes := by
  intro bytes units
  have hbytes : Spells bytes units := spells_encodeUnits units (by decide)
  have hunits : Paired units :=
    .unit rfl rfl (.unit rfl rfl (.unit rfl rfl (.unit rfl rfl (.pair rfl rfl .nil))))
  exact ⟨hbytes, hunits, decode_inverts_encode.2 bytes units hbytes hunits⟩

end JvmLift.ModifiedUtf8

import JvmLift.Bytes

/-!
# What readers accept

A reader accepts bytes that start with the written form of what it returns, and leaves what comes
behind that form. Each lemma says this of one reader, in both directions.
-/
namespace JvmLift

open List

/-! ## Big-endian forms -/

namespace Bytes

def be16 (x : UInt16) : Bytes := [UInt8.ofNat (x.toNat / 256), UInt8.ofNat (x.toNat % 256)]

def be32 (x : UInt32) : Bytes :=
  be16 (UInt16.ofNat (x.toNat / 65536)) ++ be16 (UInt16.ofNat (x.toNat % 65536))

def be64 (x : UInt64) : Bytes :=
  be32 (UInt32.ofNat (x.toNat / 4294967296)) ++ be32 (UInt32.ofNat (x.toNat % 4294967296))

@[simp] theorem length_be32 (x : UInt32) : (be32 x).length = 4 := rfl

theorem be16_ofNat (hi lo : UInt8) : be16 (UInt16.ofNat (hi.toNat * 256 + lo.toNat)) = [hi, lo] := by
  have hhi := hi.toNat_lt
  have hlo := lo.toNat_lt
  have hx : (UInt16.ofNat (hi.toNat * 256 + lo.toNat)).toNat = hi.toNat * 256 + lo.toNat :=
    UInt16.toNat_ofNat_of_lt' (show _ < 2 ^ 16 by omega)
  have hdiv : (hi.toNat * 256 + lo.toNat) / 256 = hi.toNat := by omega
  have hmod : (hi.toNat * 256 + lo.toNat) % 256 = lo.toNat := by omega
  simp only [be16, hx, hdiv, hmod, UInt8.ofNat_toNat]

theorem be32_ofNat (hi lo : UInt16) : be32 (UInt32.ofNat (hi.toNat * 65536 + lo.toNat)) = be16 hi ++ be16 lo := by
  have hhi := hi.toNat_lt
  have hlo := lo.toNat_lt
  have hx : (UInt32.ofNat (hi.toNat * 65536 + lo.toNat)).toNat = hi.toNat * 65536 + lo.toNat :=
    UInt32.toNat_ofNat_of_lt' (show _ < 2 ^ 32 by omega)
  have hdiv : (hi.toNat * 65536 + lo.toNat) / 65536 = hi.toNat := by omega
  have hmod : (hi.toNat * 65536 + lo.toNat) % 65536 = lo.toNat := by omega
  simp only [be32, hx, hdiv, hmod, UInt16.ofNat_toNat]

theorem be64_ofNat (hi lo : UInt32) : be64 (UInt64.ofNat (hi.toNat * 4294967296 + lo.toNat)) = be32 hi ++ be32 lo := by
  have hhi := hi.toNat_lt
  have hlo := lo.toNat_lt
  have hx : (UInt64.ofNat (hi.toNat * 4294967296 + lo.toNat)).toNat =
      hi.toNat * 4294967296 + lo.toNat :=
    UInt64.toNat_ofNat_of_lt' (show _ < 2 ^ 64 by omega)
  have hdiv : (hi.toNat * 4294967296 + lo.toNat) / 4294967296 = hi.toNat := by omega
  have hmod : (hi.toNat * 4294967296 + lo.toNat) % 4294967296 = lo.toNat := by omega
  simp only [be64, hx, hdiv, hmod, UInt32.ofNat_toNat]

theorem ofNat_digits16 (x : UInt16) :
    UInt16.ofNat ((UInt8.ofNat (x.toNat / 256)).toNat * 256 + (UInt8.ofNat (x.toNat % 256)).toNat) = x := by
  have hx := x.toNat_lt
  rw [UInt8.toNat_ofNat_of_lt' (show _ < 2 ^ 8 by omega),
    UInt8.toNat_ofNat_of_lt' (show _ < 2 ^ 8 by omega), Nat.div_add_mod',
    UInt16.ofNat_toNat]

theorem ofNat_digits32 (x : UInt32) : UInt32.ofNat ((UInt16.ofNat (x.toNat / 65536)).toNat * 65536 +
      (UInt16.ofNat (x.toNat % 65536)).toNat) = x := by
  have hx := x.toNat_lt
  rw [UInt16.toNat_ofNat_of_lt' (show _ < 2 ^ 16 by omega),
    UInt16.toNat_ofNat_of_lt' (show _ < 2 ^ 16 by omega), Nat.div_add_mod',
    UInt32.ofNat_toNat]

theorem ofNat_digits64 (x : UInt64) : UInt64.ofNat ((UInt32.ofNat (x.toNat / 4294967296)).toNat * 4294967296 +
      (UInt32.ofNat (x.toNat % 4294967296)).toNat) = x := by
  have hx := x.toNat_lt
  rw [UInt32.toNat_ofNat_of_lt' (show _ < 2 ^ 32 by omega),
    UInt32.toNat_ofNat_of_lt' (show _ < 2 ^ 32 by omega), Nat.div_add_mod',
    UInt64.ofNat_toNat]

end Bytes

/-! ## Readers -/

namespace Reader

open Bytes

variable {α β : Type} {r : Reader α} {bytes rest : Bytes}

theorem bind_eq_some {f : α → Reader β} {b} : (r >>= f) bytes = some (b, rest) ↔
      ∃ a mid, r bytes = some (a, mid) ∧ f a mid = some (b, rest) := by
  change (r bytes).bind (fun p => f p.1 p.2) = some (b, rest) ↔ _
  simp [Option.bind_eq_some_iff]

theorem pure_eq_some {a b} : (pure a : Reader α) bytes = some (b, rest) ↔ a = b ∧ bytes = rest := by
  change some (a, bytes) = some (b, rest) ↔ _
  simp

theorem map_eq_some {f : α → β} {b} : (f <$> r) bytes = some (b, rest) ↔ ∃ a, r bytes = some (a, rest) ∧ f a = b := by
  change (r >>= fun a => pure (f a)) bytes = _ ↔ _
  simp only [bind_eq_some, pure_eq_some]
  grind

theorem seq_eq_some {f : Reader (α → β)} {b} : (f <*> r) bytes = some (b, rest) ↔
      ∃ g mid, f bytes = some (g, mid) ∧ ∃ a, r mid = some (a, rest) ∧ g a = b := by
  change (f >>= fun g => g <$> r) bytes = _ ↔ _
  simp only [bind_eq_some, map_eq_some]

/-- Behind a check that fails if `p` holds, a reader runs where `p` does not. -/
theorem checked_eq_some {p} [Decidable p] {a} :
    (if p then (do failure; r) else r : Reader α) bytes = some (a, rest) ↔ ¬p ∧ r bytes = some (a, rest) := by
  by_cases hp : p
  · rw [if_pos hp]
    exact ⟨fun h => (by cases h), fun h => absurd hp h.1⟩
  · rw [if_neg hp, and_iff_right hp]

theorem u8_eq_some {x} : u8 bytes = some (x, rest) ↔ bytes = x :: rest := by
  cases bytes with
  | nil | cons b bytes => simp [u8]

theorem u16_eq_some {x} : u16 bytes = some (x, rest) ↔ bytes = be16 x ++ rest := by
  simp only [u16, bind_eq_some, u8_eq_some, pure_eq_some]
  constructor
  · rintro ⟨hi, _, rfl, lo, _, rfl, rfl, rfl⟩
    rw [be16_ofNat]
    rfl
  · rintro rfl
    exact ⟨_, _, rfl, _, _, rfl, ofNat_digits16 x, rfl⟩

theorem u32_eq_some {x} : u32 bytes = some (x, rest) ↔ bytes = be32 x ++ rest := by
  simp only [u32, bind_eq_some, u16_eq_some, pure_eq_some]
  constructor
  · rintro ⟨hi, _, rfl, lo, _, rfl, rfl, rfl⟩
    rw [be32_ofNat, append_assoc]
  · rintro rfl
    exact ⟨_, _, append_assoc .., _, _, rfl, ofNat_digits32 x, rfl⟩

theorem u64_eq_some {x} : u64 bytes = some (x, rest) ↔ bytes = be64 x ++ rest := by
  simp only [u64, bind_eq_some, u32_eq_some, pure_eq_some]
  constructor
  · rintro ⟨hi, _, rfl, lo, _, rfl, rfl, rfl⟩
    rw [be64_ofNat, append_assoc]
  · rintro rfl
    exact ⟨_, _, append_assoc .., _, _, rfl, ofNat_digits64 x, rfl⟩

theorem take_eq_some {n b} : take n bytes = some (b, rest) ↔ b.length = n ∧ bytes = b ++ rest := by
  unfold take
  constructor
  · intro h
    split at h
    · rename_i hn
      cases h
      exact ⟨length_take_of_le hn, (take_append_drop n bytes).symm⟩
    · cases h
  · rintro ⟨rfl, rfl⟩
    simp

theorem times_eq_some_of_le {write} {ok : α → Prop} {m n}
    (hr : ∀ bytes a rest, bytes.length ≤ m → (r bytes = some (a, rest) ↔ ok a ∧ bytes = write a ++ rest))
    {as : List α} {bytes rest} (hm : bytes.length ≤ m) : times n r bytes = some (as, rest) ↔
      as.length = n ∧ (∀ a ∈ as, ok a) ∧ bytes = as.flatMap write ++ rest := by
  induction n generalizing as bytes with
  | zero =>
      simp only [times, pure_eq_some]
      grind
  | succ n ih =>
      simp only [times, bind_eq_some, hr _ _ _ hm, pure_eq_some]
      constructor
      · rintro ⟨a, mid, ⟨ha, rfl⟩, as, rest, has, rfl, rfl⟩
        rw [length_append] at hm
        obtain ⟨rfl, hok, rfl⟩ := (ih (by omega)).mp has
        exact ⟨rfl, forall_mem_cons.mpr ⟨ha, hok⟩, by simp⟩
      · rintro ⟨hlen, hok, rfl⟩
        obtain ⟨a, as, rfl⟩ := exists_cons_of_length_eq_add_one hlen
        obtain ⟨ha, hok⟩ := forall_mem_cons.mp hok
        rw [flatMap_cons, append_assoc, length_append] at hm
        exact ⟨a, as.flatMap write ++ rest, ⟨ha, by simp⟩, as, rest,
          (ih (by omega)).mpr ⟨by simpa using hlen, hok, rfl⟩, rfl, rfl⟩

end Reader

end JvmLift

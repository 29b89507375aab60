import JvmLift.Proofs.ClassFile.Write

/-!
# The layout of the pool

Which slots of a pool that has been read are empty, and how many slots there are. Nothing looks at whether the last
constant fits, or whether there is room for the slot that is reserved.
-/
namespace JvmLift

open List

namespace Pool

def WideAt (pool : Pool) (i : Nat) : Prop := ∃ k : Constant, pool.slots[i]? = some (some k) ∧ k.isWide = true

variable {count filled : Nat} {cs : List Constant}

theorem flatMap_slotsOf_cons (c : Constant) (cs : List Constant) : (c :: cs).flatMap slotsOf =
    some c :: ((if c.isWide then [none] else []) ++ cs.flatMap slotsOf) := by
  rw [flatMap_cons, slotsOf]
  cases c.isWide <;> rfl

theorem head_flatMap_slotsOf (cs : List Constant) : (cs.flatMap slotsOf)[0]? ≠ some none := by
  cases cs with
  | nil => simp
  | cons c cs =>
      rw [flatMap_slotsOf_cons]
      simp

theorem getElem?_flatMap_slotsOf (cs : List Constant) (i : Nat) : (cs.flatMap slotsOf)[i + 1]? = some none ↔
    ∃ k : Constant, (cs.flatMap slotsOf)[i]? = some (some k) ∧ k.isWide = true := by
  induction cs generalizing i with
  | nil => simp
  | cons c cs ih =>
      have hhead := head_flatMap_slotsOf cs
      rw [flatMap_slotsOf_cons]
      cases hc : c.isWide with
      | false => cases i <;> simp [hc, hhead, ih]
      | true => obtain _ | _ | i := i <;> simp [hc, hhead, ih]

theorem slots_ofConstants (cs : List Constant) (i : Nat) :
    (ofConstants cs).slots[i + 1]? = some none ↔ (ofConstants cs).WideAt i := by
  cases i with
  | zero => simpa [ofConstants, WideAt] using head_flatMap_slotsOf cs
  | succ i => exact getElem?_flatMap_slotsOf cs i

/-- Constants that fill a pool end at its last slot, or one behind it, which is then the slot behind a wide one. -/
theorem length_of_fills (h : Fills count filled cs) (hle : filled ≤ count) :
    count ≤ filled + (cs.flatMap slotsOf).length ∧ filled + (cs.flatMap slotsOf).length ≤ count + 1 ∧
      (filled + (cs.flatMap slotsOf).length = count + 1 → (cs.flatMap slotsOf).getLast? = some none) := by
  induction cs generalizing filled with
  | nil =>
      have hcount : count ≤ filled := h
      rw [flatMap_nil, length_nil]
      omega
  | cons c cs ih =>
      obtain ⟨hroom, hrest⟩ := h
      rw [flatMap_cons, length_append]
      by_cases hnext : filled + (slotsOf c).length ≤ count
      · obtain ⟨hfull, hbound, hlast⟩ := ih hrest hnext
        refine ⟨by omega, by omega, fun heq => ?_⟩
        rw [getLast?_append, hlast (by omega), Option.some_or]
      · -- the constant takes two slots and there was room for one, so nothing is read behind it
        obtain rfl : cs = [] := by
          cases cs with
          | nil => rfl
          | cons c' cs => exact absurd hrest.1 (by omega)
        unfold slotsOf at hnext ⊢
        cases hc : c.isWide <;> simp [hc] at hnext ⊢ <;> omega

variable {pool : Pool} {announced : UInt16}

theorem AnnouncedBy.wideAt_iff (h : pool.AnnouncedBy announced) (i : Nat) :
    pool.slots[i + 1]? = some none ↔ pool.WideAt i := by
  rw [h.eq_ofConstants]
  exact slots_ofConstants _ i

theorem AnnouncedBy.head (h : pool.AnnouncedBy announced) : pool.slots[0]? = some none := by
  rw [h.eq_ofConstants]
  rfl

/-- The announced slots are there, and one more if the last of them holds a wide constant. -/
theorem AnnouncedBy.size_eq_iff (h : pool.AnnouncedBy announced) : pool.size = announced.toNat ↔
    0 < announced.toNat ∧ ¬pool.WideAt (announced.toNat - 1) := by
  have hslots : pool.slots = none :: pool.constants.flatMap slotsOf := congrArg slots h.eq_ofConstants
  have hsize : pool.size = 1 + (pool.constants.flatMap slotsOf).length := by
    rw [size, hslots, length_cons, Nat.add_comm]
  constructor
  · intro heq
    have hpos : 0 < announced.toNat := by omega
    refine ⟨hpos, fun hwide => ?_⟩
    have hbehind : announced.toNat - 1 + 1 < pool.size :=
      (List.getElem?_eq_some_iff.mp ((h.wideAt_iff _).mpr hwide)).1
    omega
  · rintro ⟨hpos, hwide⟩
    obtain ⟨hfull, hbound, hlast⟩ := length_of_fills h.fills hpos
    by_cases hover : 1 + (pool.constants.flatMap slotsOf).length = announced.toNat + 1
    · refine absurd ((h.wideAt_iff _).mp ?_) hwide
      have hlast := hlast hover
      rw [getLast?_eq_getElem?] at hlast
      rwa [hslots, show announced.toNat - 1 = (pool.constants.flatMap slotsOf).length - 1 by omega]
    · omega

def OutOfRange (pool : Pool) (i : UInt16) : Prop := ∃ size, pool.get i = .error (.poolIndexOutOfRange i size)

theorem outOfRange_iff {i} : pool.OutOfRange i ↔ pool.size ≤ i.toNat := by
  unfold OutOfRange get size
  split
  · rename_i h
    simpa using h
  all_goals
    rename_i h
    have hi := (List.getElem?_eq_some_iff.mp h).1
    simpa using hi

end Pool

namespace ClassFile

/-- A pool that has been read has an empty first slot and, behind that, an empty slot exactly behind each wide
constant; an index is out of range exactly behind the last slot. The slots are as many as announced unless none is
announced or the last one announced holds a wide constant. -/
theorem parse_pool_layout {bytes : Bytes} {c : ClassFile} (h : parse bytes = .ok c) : c.pool.slots[0]? = some none ∧
    (∀ i, 0 < i → i < c.pool.size → (c.pool.slots[i]? = some none ↔ c.pool.WideAt (i - 1))) ∧
    (∀ i, c.pool.OutOfRange i ↔ c.pool.size ≤ i.toNat) ∧
    (c.pool.size = c.poolCount.toNat ↔ 0 < c.poolCount.toNat ∧ ¬c.pool.WideAt (c.poolCount.toNat - 1)) ∧
    (0 < c.poolCount.toNat → ¬c.pool.WideAt (c.poolCount.toNat - 1) →
      c.pool.size = c.poolCount.toNat ∧ ∀ i, c.pool.OutOfRange i ↔ c.poolCount.toNat ≤ i.toNat) := by
  have hpool := (parse_eq_ok.mp h).1.2
  refine ⟨hpool.head, fun i hi _ => ?_, fun i => Pool.outOfRange_iff, hpool.size_eq_iff, fun hpos hwide => ?_⟩
  · rw [← hpool.wideAt_iff, Nat.sub_add_cancel hi]
  · have hsize := hpool.size_eq_iff.mpr ⟨hpos, hwide⟩
    exact ⟨hsize, fun i => hsize ▸ Pool.outOfRange_iff⟩

def ofPool (count : UInt16) (constants : List Constant) : ClassFile where
  minor := 0
  major := 52
  poolCount := count
  pool := .ofConstants constants
  flags := ⟨0x0021⟩
  thisClass := 0
  superClass := 0
  interfaces := []
  fields := []
  methods := []
  attributes := []

theorem parse_pool_layout_wideInside :
    parse (ofPool 4 [.long 7, .classRef 1]).write = .ok (ofPool 4 [.long 7, .classRef 1]) ∧
      (ofPool 4 [.long 7, .classRef 1]).pool.size = 4 ∧ (ofPool 4 [.long 7, .classRef 1]).pool.OutOfRange 4 ∧
      (ofPool 4 [.long 7, .classRef 1]).pool.slots[2]? = some none := by
  have hparse : parse (ofPool 4 [.long 7, .classRef 1]).write = .ok (ofPool 4 [.long 7, .classRef 1]) := rfl
  have hwide : ¬(ofPool 4 [.long 7, .classRef 1]).pool.WideAt 3 := by
    rintro ⟨k, hk, hwide⟩
    cases hk
    cases hwide
  obtain ⟨-, hempty, -, -, hsize⟩ := parse_pool_layout hparse
  obtain ⟨hsize, hrange⟩ := hsize (by decide) hwide
  exact ⟨hparse, hsize, (hrange 4).mpr (by decide), (hempty 2 (by decide) (by decide)).mpr ⟨_, rfl, rfl⟩⟩

/-- Where a wide constant stands in the only slot announced, there is a slot behind it that is not out of range. -/
theorem parse_pool_overlong : parse (ofPool 2 [.long 7]).write = .ok (ofPool 2 [.long 7]) ∧
    (ofPool 2 [.long 7]).poolCount = 2 ∧ (ofPool 2 [.long 7]).pool.size = 3 ∧
    (ofPool 2 [.long 7]).pool.get 2 = .error (.poolKindMismatch 2 "usable entry" "unusable slot") :=
  ⟨rfl, rfl, rfl, rfl⟩

end ClassFile

end JvmLift

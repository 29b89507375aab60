import JvmLift.ClassFile.Basic
import JvmLift.Proofs.Bytes
import Mathlib.Algebra.Group.Nat.Defs

/-!
# Reading class files inverts writing them

The written form of a class file, and the proof that the reader accepts written class files and
nothing else. A model can be written if its lists fit the counts in front of them.
-/
namespace JvmLift

open Bytes List Reader

/-! ## Written forms -/

def writeRows {α : Type} (write : α → Bytes) (as : List α) : Bytes :=
  be16 (UInt16.ofNat as.length) ++ as.flatMap write

namespace Constant

def write : Constant → Bytes
  | .utf8 bytes => 1 :: (be16 (UInt16.ofNat bytes.length) ++ bytes)
  | .integer v => 3 :: be32 v.toUInt32
  | .float v => 4 :: be32 v.bits
  | .long v => 5 :: be64 v.toUInt64
  | .double v => 6 :: be64 v.bits
  | .classRef name => 7 :: be16 name
  | .string text => 8 :: be16 text
  | .fieldRef c n => 9 :: (be16 c ++ be16 n)
  | .methodRef c n => 10 :: (be16 c ++ be16 n)
  | .interfaceMethodRef c n => 11 :: (be16 c ++ be16 n)
  | .nameAndType n d => 12 :: (be16 n ++ be16 d)
  | .methodHandle kind r => 15 :: kind :: be16 r
  | .methodType d => 16 :: be16 d
  | .dynamic b n => 17 :: (be16 b ++ be16 n)
  | .invokeDynamic b n => 18 :: (be16 b ++ be16 n)
  | .module n => 19 :: be16 n
  | .package n => 20 :: be16 n

def Fits : Constant → Prop
  | .utf8 bytes => bytes.length < 2 ^ 16
  | _ => True

end Constant

namespace Attribute

def write (a : Attribute) : Bytes := be16 a.nameIndex ++ (be32 (UInt32.ofNat a.info.length) ++ a.info)

def Fits (a : Attribute) : Prop := a.info.length < 2 ^ 32

end Attribute

namespace Member

def write (m : Member) : Bytes :=
  be16 m.flags.bits ++ (be16 m.nameIndex ++ (be16 m.descriptorIndex ++
    writeRows Attribute.write m.attributes))

def Fits (m : Member) : Prop := m.attributes.length < 2 ^ 16 ∧ ∀ a ∈ m.attributes, a.Fits

end Member

def Pool.constants (pool : Pool) : List Constant := pool.slots.filterMap id

namespace ClassFile

def write (c : ClassFile) : Bytes :=
  be32 magic ++ (be16 c.minor ++ (be16 c.major ++ (be16 c.poolCount ++
    (c.pool.constants.flatMap Constant.write ++ (be16 c.flags.bits ++ (be16 c.thisClass ++
      (be16 c.superClass ++ (writeRows be16 c.interfaces ++ (writeRows Member.write c.fields ++
        (writeRows Member.write c.methods ++ writeRows Attribute.write c.attributes))))))))))

/-- The lists of a class file fit the counts in front of them. -/
structure Fits (c : ClassFile) : Prop where
  constants : ∀ k ∈ c.pool.constants, k.Fits
  interfaces : c.interfaces.length < 2 ^ 16
  fields : c.fields.length < 2 ^ 16 ∧ ∀ m ∈ c.fields, m.Fits
  methods : c.methods.length < 2 ^ 16 ∧ ∀ m ∈ c.methods, m.Fits
  attributes : c.attributes.length < 2 ^ 16 ∧ ∀ a ∈ c.attributes, a.Fits

end ClassFile

/-! ## Tables -/

section

variable {bytes rest : Bytes}

theorem rows_eq_some_of_le {α r write} {ok : α → Prop} {m}
    (hr : ∀ bytes a rest, bytes.length ≤ m → (r bytes = some (a, rest) ↔ ok a ∧ bytes = write a ++ rest))
    (hm : bytes.length ≤ m) {as} : Attribute.rows r bytes = some (as, rest) ↔
      (as.length < 2 ^ 16 ∧ ∀ a ∈ as, ok a) ∧ bytes = writeRows write as ++ rest := by
  have hshort {n : UInt16} {mid : Bytes} (hmid : bytes = be16 n ++ mid) : mid.length ≤ m := by
    simp only [hmid, length_append] at hm
    omega
  simp only [Attribute.rows, bind_eq_some, u16_eq_some]
  constructor
  · rintro ⟨n, mid, hmid, h⟩
    obtain ⟨hlen, hok, rfl⟩ := (times_eq_some_of_le hr (hshort hmid)).mp h
    refine ⟨⟨by rw [hlen]; exact n.toNat_lt, hok⟩, ?_⟩
    rw [hmid, writeRows, hlen, UInt16.ofNat_toNat, append_assoc]
  · rintro ⟨⟨hlen, hok⟩, hbytes⟩
    refine ⟨_, _, hbytes, (times_eq_some_of_le hr (hshort hbytes)).mpr ⟨?_, hok, rfl⟩⟩
    exact (UInt16.toNat_ofNat_of_lt' hlen).symm

theorem rows_eq_some {α r} {write : α → Bytes} {ok : α → Prop}
    (hr : ∀ bytes a rest, r bytes = some (a, rest) ↔ ok a ∧ bytes = write a ++ rest) {as} :
    Attribute.rows r bytes = some (as, rest) ↔
      (as.length < 2 ^ 16 ∧ ∀ a ∈ as, ok a) ∧ bytes = writeRows write as ++ rest :=
  rows_eq_some_of_le (fun bytes a rest _ => hr bytes a rest) (Nat.le_refl _)

/-! ## Constants and the pool -/

namespace Constant

def Follows (tag : Nat) (r : Reader Constant) : Prop :=
  ∀ ⦃bytes c rest⦄, r bytes = some (c, rest) → c.Fits ∧ UInt8.ofNat tag :: bytes = c.write ++ rest

section

variable {α β : Type} {r : Reader α} {r' : Reader β} {w : α → Bytes} {w' : β → Bytes} {tag : Nat}

variable (hr : ∀ {bytes rest a}, r bytes = some (a, rest) ↔ bytes = w a ++ rest)

include hr

theorem follows_one {f} (hf : ∀ a, (f a).Fits ∧ (f a).write = UInt8.ofNat tag :: w a) : Follows tag (f <$> r) := by
  intro bytes c rest h
  obtain ⟨a, ha, rfl⟩ := map_eq_some.mp h
  exact ⟨(hf a).1, by rw [hr.mp ha, (hf a).2, cons_append]⟩

theorem follows_two {f} (hr' : ∀ {bytes rest a}, r' bytes = some (a, rest) ↔ bytes = w' a ++ rest)
    (hf : ∀ a b, (f a b).Fits ∧ (f a b).write = UInt8.ofNat tag :: (w a ++ w' b)) : Follows tag (f <$> r <*> r') := by
  intro bytes c rest h
  obtain ⟨_, mid, hmid, b, hb, rfl⟩ := seq_eq_some.mp h
  obtain ⟨a, ha, rfl⟩ := map_eq_some.mp hmid
  refine ⟨(hf a b).1, ?_⟩
  rw [hr.mp ha, hr'.mp hb, (hf a b).2, cons_append, append_assoc]

end

theorem follows_text : Follows 1 (do
    let length ← Reader.u16
    .utf8 <$> Reader.take length.toNat) := by
  intro bytes c rest h
  simp only [bind_eq_some, map_eq_some, u16_eq_some, take_eq_some] at h
  obtain ⟨n, _, rfl, text, ⟨hlen, rfl⟩, rfl⟩ := h
  refine ⟨?_, ?_⟩
  · rw [Fits, hlen]
    exact n.toNat_lt
  · rw [write, hlen, UInt16.ofNat_toNat]
    rfl

theorem follows_readBody (tag : UInt8) : Follows tag.toNat (readBody tag) := by
  unfold readBody
  generalize tag.toNat = n
  split
  · exact follows_text
  · exact follows_one u32_eq_some fun _ => ⟨trivial, rfl⟩
  · exact follows_one u32_eq_some fun _ => ⟨trivial, rfl⟩
  · exact follows_one u64_eq_some fun _ => ⟨trivial, rfl⟩
  · exact follows_one u64_eq_some fun _ => ⟨trivial, rfl⟩
  · exact follows_one u16_eq_some fun _ => ⟨trivial, rfl⟩
  · exact follows_one u16_eq_some fun _ => ⟨trivial, rfl⟩
  · exact follows_two u16_eq_some u16_eq_some fun _ _ => ⟨trivial, rfl⟩
  · exact follows_two u16_eq_some u16_eq_some fun _ _ => ⟨trivial, rfl⟩
  · exact follows_two u16_eq_some u16_eq_some fun _ _ => ⟨trivial, rfl⟩
  · exact follows_two u16_eq_some u16_eq_some fun _ _ => ⟨trivial, rfl⟩
  · exact follows_two (w := fun x => [x]) u8_eq_some u16_eq_some fun _ _ => ⟨trivial, rfl⟩
  · exact follows_one u16_eq_some fun _ => ⟨trivial, rfl⟩
  · exact follows_two u16_eq_some u16_eq_some fun _ _ => ⟨trivial, rfl⟩
  · exact follows_two u16_eq_some u16_eq_some fun _ _ => ⟨trivial, rfl⟩
  · exact follows_one u16_eq_some fun _ => ⟨trivial, rfl⟩
  · exact follows_one u16_eq_some fun _ => ⟨trivial, rfl⟩
  · intro bytes c rest h
    cases h

theorem read_write {c} (hc : c.Fits) : read (c.write ++ rest) = some (c, rest) := by
  have h16 {x rest} : Reader.u16 (be16 x ++ rest) = some (x, rest) := u16_eq_some.mpr rfl
  have h32 {x rest} : Reader.u32 (be32 x ++ rest) = some (x, rest) := u32_eq_some.mpr rfl
  have h64 {x rest} : Reader.u64 (be64 x ++ rest) = some (x, rest) := u64_eq_some.mpr rfl
  have htwo {f : UInt16 → UInt16 → Constant} {a b : UInt16} :
      (f <$> Reader.u16 <*> Reader.u16) (be16 a ++ be16 b ++ rest) = some (f a b, rest) := by
    simp only [seq_eq_some, map_eq_some, u16_eq_some]
    exact ⟨_, _, ⟨_, rfl, rfl⟩, _, rfl, rfl⟩
  rw [read, bind_eq_some]
  cases c
  case utf8 text =>
    refine ⟨_, _, rfl, bind_eq_some.mpr ⟨UInt16.ofNat text.length, text ++ rest, ?_, ?_⟩⟩
    · exact u16_eq_some.mpr (append_assoc ..)
    · exact map_eq_some.mpr ⟨_, take_eq_some.mpr ⟨(UInt16.toNat_ofNat_of_lt' hc).symm, rfl⟩, rfl⟩
  case methodHandle kind r =>
    refine ⟨_, _, rfl, seq_eq_some.mpr ⟨_, _, map_eq_some.mpr ⟨kind, rfl, rfl⟩, r, h16, rfl⟩⟩
  case fieldRef | methodRef | interfaceMethodRef | nameAndType | dynamic | invokeDynamic =>
    exact ⟨_, _, rfl, htwo⟩
  all_goals
    refine ⟨_, _, rfl, ?_⟩
    simp [readBody, map_eq_some, h16, h32, h64]

theorem read_eq_some {c} : read bytes = some (c, rest) ↔ c.Fits ∧ bytes = c.write ++ rest := by
  constructor
  · intro h
    obtain ⟨tag, mid, htag, h⟩ := bind_eq_some.mp h
    obtain rfl := u8_eq_some.mp htag
    simpa using follows_readBody tag h
  · rintro ⟨hc, rfl⟩
    exact read_write hc

end Constant

namespace Pool

/-- Constants fill a pool that announces `count` slots, of which `filled` are already: there is room
for another slot in front of each constant, and none behind the last. -/
def Fills (count : Nat) : Nat → List Constant → Prop
  | filled, [] => count ≤ filled
  | filled, c :: cs => filled < count ∧ Fills count (filled + (slotsOf c).length) cs

theorem length_slotsOf_pos (c : Constant) : 0 < (slotsOf c).length := by
  unfold slotsOf
  split <;> exact Nat.succ_pos _

theorem fills_of_eq {count filled cs} (h : count = filled + (cs.flatMap slotsOf).length) : Fills count filled cs := by
  induction cs generalizing filled with
  | nil => exact Nat.le_of_eq h
  | cons c cs ih =>
      have hpos := length_slotsOf_pos c
      rw [flatMap_cons, length_append] at h
      exact ⟨by omega, ih (by omega)⟩

theorem constants_ofConstants (cs : List Constant) : (ofConstants cs).constants = cs := by
  have hslots (c : Constant) : (slotsOf c).filterMap id = [c] := by
    unfold slotsOf
    split <;> rfl
  change (cs.flatMap slotsOf).filterMap id = cs
  induction cs with
  | nil => rfl
  | cons c cs ih => rw [flatMap_cons, filterMap_append, hslots, ih, singleton_append]

theorem readSlots_eq_some {count fuel filled} (hfuel : count ≤ filled + fuel) {slots} :
    readSlots count fuel filled bytes = some (slots, rest) ↔ ∃ cs, slots = cs.flatMap slotsOf ∧
      Fills count filled cs ∧ (∀ c ∈ cs, c.Fits) ∧ bytes = cs.flatMap Constant.write ++ rest := by
  -- a constant can only be read where there is room, and each takes at least one slot
  induction fuel generalizing filled bytes rest slots with
  | zero =>
      rw [readSlots, pure_eq_some]
      constructor
      · rintro ⟨rfl, rfl⟩
        exact ⟨[], rfl, hfuel, by simp, rfl⟩
      · rintro ⟨cs, rfl, hfills, -, rfl⟩
        cases cs with
        | nil => exact ⟨rfl, rfl⟩
        | cons c cs => exact absurd hfills.1 (by omega)
  | succ fuel ih =>
      rw [readSlots]
      split
      · rename_i hroom
        have hfuel (c : Constant) : count ≤ filled + (slotsOf c).length + fuel := by
          have hpos := length_slotsOf_pos c
          omega
        simp only [bind_eq_some, Constant.read_eq_some, ih (hfuel _), pure_eq_some]
        constructor
        · rintro ⟨c, _, ⟨hc, rfl⟩, _, _, ⟨cs, rfl, hfills, hfit, rfl⟩, rfl, rfl⟩
          refine ⟨c :: cs, rfl, ⟨hroom, hfills⟩, forall_mem_cons.mpr ⟨hc, hfit⟩, ?_⟩
          rw [flatMap_cons, append_assoc]
        · rintro ⟨cs, rfl, hfills, hfit, rfl⟩
          cases cs with
          | nil => exact absurd hfills (Nat.not_le_of_lt hroom)
          | cons c cs =>
              obtain ⟨hc, hfit⟩ := forall_mem_cons.mp hfit
              exact ⟨c, _, ⟨hc, by rw [flatMap_cons, append_assoc]⟩, _, _,
                ⟨cs, rfl, hfills.2, hfit, rfl⟩, rfl, rfl⟩
      · rename_i hfull
        rw [pure_eq_some]
        constructor
        · rintro ⟨rfl, rfl⟩
          exact ⟨[], rfl, Nat.le_of_not_lt hfull, by simp, rfl⟩
        · rintro ⟨cs, rfl, hfills, -, rfl⟩
          cases cs with
          | nil => exact ⟨rfl, rfl⟩
          | cons c cs => exact absurd hfills.1 hfull

/-- A pool that is made of its constants, which fill the slots that it announces. -/
structure AnnouncedBy (count : UInt16) (pool : Pool) : Prop where
  eq_ofConstants : pool = ofConstants pool.constants
  fills : Fills count.toNat 1 pool.constants

theorem read_eq_some {count pool} :
    read count bytes = some (pool, rest) ↔ pool.AnnouncedBy count ∧ (∀ c ∈ pool.constants, c.Fits) ∧
      bytes = pool.constants.flatMap Constant.write ++ rest := by
  simp only [read, bind_eq_some, readSlots_eq_some (Nat.le_add_left ..), pure_eq_some]
  constructor
  · rintro ⟨_, _, ⟨cs, rfl, hfills, hfit, rfl⟩, rfl, rfl⟩
    change AnnouncedBy count (ofConstants cs) ∧ (∀ c ∈ (ofConstants cs).constants, c.Fits) ∧
      _ = (ofConstants cs).constants.flatMap Constant.write ++ _
    rw [constants_ofConstants]
    exact ⟨⟨by rw [constants_ofConstants], by rwa [constants_ofConstants]⟩, hfit, rfl⟩
  · rintro ⟨⟨heq, hfills⟩, hfit, rfl⟩
    exact ⟨_, _, ⟨pool.constants, rfl, hfills, hfit, rfl⟩, heq.symm, rfl⟩

end Pool

/-! ## Attributes, members and class files -/

theorem Attribute.read_eq_some {a} : Attribute.read bytes = some (a, rest) ↔ a.Fits ∧ bytes = a.write ++ rest := by
  simp only [Attribute.read, bind_eq_some, u16_eq_some, u32_eq_some,
    take_eq_some, pure_eq_some]
  constructor
  · rintro ⟨n, _, rfl, length, _, rfl, info, _, ⟨hlen, rfl⟩, rfl, rfl⟩
    refine ⟨?_, ?_⟩
    · rw [Attribute.Fits, hlen]
      exact length.toNat_lt
    · simp only [Attribute.write, hlen, UInt32.ofNat_toNat, append_assoc]
  · rintro ⟨ha, rfl⟩
    exact ⟨_, _, rfl, _, _, rfl, _, _, ⟨(UInt32.toNat_ofNat_of_lt' ha).symm, rfl⟩, rfl, rfl⟩

theorem Member.read_eq_some {m} : Member.read bytes = some (m, rest) ↔ m.Fits ∧ bytes = m.write ++ rest := by
  simp only [Member.read, bind_eq_some, u16_eq_some,
    rows_eq_some (fun _ _ _ => Attribute.read_eq_some), pure_eq_some]
  constructor
  · rintro ⟨flags, _, rfl, n, _, rfl, d, _, rfl, attributes, _, ⟨hfit, rfl⟩, rfl, rfl⟩
    exact ⟨hfit, by simp only [Member.write, append_assoc]⟩
  · rintro ⟨hfit, rfl⟩
    exact ⟨_, _, rfl, _, _, rfl, _, _, rfl, _, _, ⟨hfit, rfl⟩, rfl, rfl⟩

namespace ClassFile

variable {c : ClassFile}

theorem read_eq_some : read bytes = some (c, rest) ↔
      (c.Fits ∧ c.pool.AnnouncedBy c.poolCount) ∧ bytes = c.write ++ rest := by
  have hword (bytes : Bytes) (a : UInt16) (rest : Bytes) :
      Reader.u16 bytes = some (a, rest) ↔ True ∧ bytes = be16 a ++ rest := by
    rw [u16_eq_some, true_and]
  simp only [read, bind_eq_some, checked_eq_some, u16_eq_some, u32_eq_some,
    Pool.read_eq_some, rows_eq_some hword, rows_eq_some (fun _ _ _ => Member.read_eq_some),
    rows_eq_some (fun _ _ _ => Attribute.read_eq_some), pure_eq_some, Decidable.not_not]
  constructor
  · rintro ⟨_, _, rfl, rfl, minor, _, rfl, major, _, rfl, count, _, rfl, pool, _, ⟨hpool, hconstants, rfl⟩,
      flags, _, rfl, thisClass, _, rfl, superClass, _, rfl, interfaces, _, ⟨⟨hinterfaces, -⟩, rfl⟩,
      fields, _, ⟨hfields, rfl⟩, methods, _, ⟨hmethods, rfl⟩, attributes, _, ⟨hattributes, rfl⟩, rfl, rfl⟩
    refine ⟨⟨⟨hconstants, hinterfaces, hfields, hmethods, hattributes⟩, hpool⟩, ?_⟩
    simp only [write, append_assoc]
  · rintro ⟨⟨hfits, hpool⟩, rfl⟩
    simp only [write, append_assoc]
    exact ⟨_, _, rfl, rfl, _, _, rfl, _, _, rfl, _, _, rfl, _, _, ⟨hpool, hfits.constants, rfl⟩, _, _, rfl,
      _, _, rfl, _, _, rfl, _, _, ⟨⟨hfits.interfaces, fun _ _ => trivial⟩, rfl⟩, _, _, ⟨hfits.fields, rfl⟩,
      _, _, ⟨hfits.methods, rfl⟩, _, _, ⟨hfits.attributes, rfl⟩, rfl, rfl⟩

theorem parse_eq_ok : parse bytes = .ok c ↔
      (c.Fits ∧ c.pool.AnnouncedBy c.poolCount) ∧ ∃ rest, bytes = c.write ++ rest := by
  unfold parse
  constructor
  · intro h
    split at h
    · rename_i c' rest hread
      obtain rfl : c' = c := Except.ok.inj h
      obtain ⟨hc, rfl⟩ := read_eq_some.mp hread
      exact ⟨hc, rest, rfl⟩
    · cases h
  · rintro ⟨hc, rest, rfl⟩
    rw [read_eq_some.mpr ⟨hc, rfl⟩]

/-- What comes behind the written form is all that a class file can be followed by: no part of the
written form is a class file. -/
theorem parse_eq_error_of_prefix (hc : c.Fits ∧ c.pool.AnnouncedBy c.poolCount) {p}
    (hp : p <+: c.write) (hne : p ≠ c.write) : parse p = .error .unreadable := by
  cases hparse : parse p with
  | error fault =>
      unfold parse at hparse
      split at hparse
      · cases hparse
      · rw [← hparse]
  | ok c' =>
      obtain ⟨hc', rest, rfl⟩ := parse_eq_ok.mp hparse
      obtain ⟨behind, hbehind⟩ := hp
      have hread : read c.write = some (c, []) := read_eq_some.mpr ⟨hc, (append_nil _).symm⟩
      have hread' : read c.write = some (c', rest ++ behind) :=
        read_eq_some.mpr ⟨hc', by rw [← hbehind, append_assoc]⟩
      rw [hread] at hread'
      obtain ⟨rfl, hnil⟩ := Prod.mk.inj (Option.some.inj hread')
      obtain ⟨rfl, -⟩ := append_eq_nil_iff.mp hnil.symm
      exact absurd (append_nil _) hne

end ClassFile

end

theorem Pool.utf8_ofConstants {before after text} (h : 1 + (before.flatMap slotsOf).length < 2 ^ 16) :
    (ofConstants (before ++ .utf8 text :: after)).utf8 (UInt16.ofNat (1 + (before.flatMap slotsOf).length)) =
      .ok (ModifiedUtf8.decode text) := by
  have hslot : (ofConstants (before ++ .utf8 text :: after)).slots[1 + (before.flatMap slotsOf).length]? =
      some (some (.utf8 text)) := by
    rw [ofConstants, Nat.add_comm, getElem?_cons_succ, flatMap_append, getElem?_append_right (Nat.le_refl _), Nat.sub_self]
    rfl
  rw [utf8, get, UInt16.toNat_ofNat_of_lt' h, hslot]
  rfl

theorem Attribute.body?_eq_some {pool} {a : Attribute} {body} :
    a.body? pool = some body ↔ a.interpret pool = .ok (some body) := by
  unfold body?
  cases a.interpret pool <;> simp [Except.toOption]

namespace ClassFile

/-- Reading inverts writing. A class file whose lists fit and whose pool announces the slots of its
constants is read back from its written form, whatever comes behind; its texts and the bodies of its
attributes are then to be had from the pool. Conversely, bytes that are read as a class file start
with its written form, and nothing shorter than the written form is read. -/
theorem parse_inverts_write (c : ClassFile) : (∀ constants trailing, c.Fits → c.pool = Pool.ofConstants constants →
      c.poolCount.toNat = 1 + (constants.flatMap Pool.slotsOf).length →
        parse (c.write ++ trailing) = .ok c ∧
        (∀ before text after, constants = before ++ .utf8 text :: after →
          c.pool.utf8 (UInt16.ofNat (1 + (before.flatMap Pool.slotsOf).length)) =
            .ok (ModifiedUtf8.decode text)) ∧
        ∀ a body, Attribute.body? c.pool a = some body ↔ a.interpret c.pool = .ok (some body)) ∧
    ∀ bytes, parse bytes = .ok c → (c.Fits ∧ c.pool.AnnouncedBy c.poolCount) ∧
      (∃ rest, bytes = c.write ++ rest) ∧
      ∀ p, p <+: c.write → p ≠ c.write → parse p = .error .unreadable := by
  refine ⟨fun constants trailing hfits hpool hcount => ⟨?_, ?_, fun a body => Attribute.body?_eq_some⟩,
    fun bytes hparse => ?_⟩
  · have hconstants : c.pool.constants = constants := by rw [hpool, Pool.constants_ofConstants]
    have hannounced : c.pool.AnnouncedBy c.poolCount :=
      ⟨by rw [hconstants, hpool], by rw [hconstants]; exact Pool.fills_of_eq hcount⟩
    exact parse_eq_ok.mpr ⟨⟨hfits, hannounced⟩, trailing, rfl⟩
  · rintro before text after rfl
    rw [hpool]
    refine Pool.utf8_ofConstants (Nat.lt_of_le_of_lt ?_ c.poolCount.toNat_lt)
    rw [hcount, List.flatMap_append, List.length_append]
    omega
  · obtain ⟨hc, hrest⟩ := parse_eq_ok.mp hparse
    exact ⟨hc, hrest, fun p => parse_eq_error_of_prefix hc⟩

/-- A class with a wide constant in front of a text of one character, which is written in two bytes. -/
def withWideConstant : ClassFile where
  minor := 0
  major := 52
  poolCount := 6
  pool := .ofConstants [.utf8 [0x41], .classRef 1, .long (-1), .utf8 [0xC0, 0x80]]
  flags := ⟨0x8021⟩
  thisClass := 2
  superClass := 0
  interfaces := [2]
  fields := [⟨⟨0x0001⟩, 1, 1, []⟩]
  methods := []
  attributes := [⟨5, [0xff]⟩]

theorem parse_inverts_write_withWideConstant : parse (withWideConstant.write ++ [0xca, 0xfe]) = .ok withWideConstant ∧
      withWideConstant.pool.utf8 5 = .ok (ModifiedUtf8.decode [0xC0, 0x80]) ∧
      parse withWideConstant.write.dropLast = .error .unreadable := by
  have hfits : withWideConstant.Fits := by
    constructor <;> simp [withWideConstant, Pool.constants_ofConstants, Constant.Fits, Member.Fits,
      Attribute.Fits]
  obtain ⟨hwrite, hread⟩ := parse_inverts_write withWideConstant
  have hcount : withWideConstant.poolCount.toNat = 1 + List.length (List.flatMap Pool.slotsOf
    [.utf8 [0x41], .classRef 1, .long (-1), .utf8 [0xC0, 0x80]]) := rfl
  obtain ⟨hparse, htext, -⟩ := hwrite _ [0xca, 0xfe] hfits rfl hcount
  refine ⟨hparse, htext [_, _, _] _ [] rfl, (hread _ hparse).2.2 _ (List.dropLast_prefix _) ?_⟩
  decide

end ClassFile

end JvmLift

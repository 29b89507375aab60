import JvmLift.Proofs.Meaning.Execution
import JvmLift.Structure.Walk

/-!
# Agreement of statements with blocks

`Matches` says that an outcome of structured statements is what blocks give from a block on, and `Leads` at which
place control is then. Outcomes that match are put together as statements are.
-/
namespace JvmLift

open Source (Outcome)

universe u

/-! ## Agreement of outcomes with blocks -/

/-- Blocks followed from `b` on execute what the outcome says, and come to a place that belongs to its
ending. At least `least` blocks are followed, and `bound` if some loop is exhausted. -/
inductive Matches {σ : Type u} (I : Interpretation σ) (blocks : List Block) (bound least : Nat)
    (leads : Source.Ending Unit → Option BlockId → Prop) (b : BlockId) (x : σ) : Outcome σ Unit → Prop where
  | ended {k trace y ending pos} (hk : least ≤ k) (hf : Block.follow I blocks k b x = ⟨trace, y, pos⟩)
      (hl : leads ending pos) : Matches I blocks bound least leads b x ⟨trace, y, ending⟩
  | exhausted {k trace y t} (hk : bound ≤ k) (hf : Block.follow I blocks k b x = ⟨trace, y, some t⟩) :
      Matches I blocks bound least leads b x ⟨trace, y, .exhausted⟩

def Block.Closed (blocks : List Block) : Prop :=
  ∀ b block, find? blocks b = some block → ∀ t ∈ block.succs, (find? blocks t).isSome = true

/-- A block with an exit to two blocks at most, or with a last statement that ends the method. -/
def Block.Sequential (b : Block) : Prop :=
  match b.exit with
  | .fall _ | .goto _ | .cond .. => True
  | .leave | .throw => ∃ s, b.stmts.getLast? = some s ∧ s.stmt.isTerminal = true
  | .switch .. | .ret => False

section

variable {σ : Type u} {I : Interpretation σ} {blocks : List Block}

theorem Block.Sequential.next? {block : Block} (h : block.Sequential) {x}
    (hn : (I.runAll block.stmts x).ending = .normal) (y : σ) : ∃ t, block.exit.next? I y = some t := by
  obtain ⟨id, stmts, exit, stack⟩ := block
  cases exit with
  | fall t | goto t => exact ⟨t, rfl⟩
  | cond e t f => exact ⟨_, rfl⟩
  | leave | throw =>
      obtain ⟨s, hl, ht⟩ := h
      rw [Interpretation.returned_runAll hl ht] at hn
      cases hn
  | switch | ret => exact h.elim

theorem Block.Closed.isSome_find? (hc : Block.Closed blocks) {k b t x} (hb : (Block.find? blocks b).isSome = true)
    (h : (Block.follow I blocks k b x).position = some t) : (Block.find? blocks t).isSome = true := by
  induction k generalizing b x with
  | zero =>
      obtain rfl : b = t := by simpa [Block.follow] using h
      exact hb
  | succ k ih =>
      obtain ⟨block, hblock⟩ := Option.isSome_iff_exists.mp hb
      rw [Block.follow_succ hblock] at h
      split at h
      · rename_i hn
        rw [hn] at h
        cases h
      · rename_i u hn
        exact ih (hc b block hblock u (Block.mem_succs_of_step hn)) h

namespace Matches

variable {bound least bound' least' : Nat} {leads leads' : Source.Ending Unit → Option BlockId → Prop}
  {b : BlockId} {x : σ} {r : Outcome σ Unit}

theorem mono (h : Matches I blocks bound least leads b x r) (hb : bound' ≤ bound)
    (hl : least' ≤ least) (hi : ∀ ending pos, leads ending pos → leads' ending pos) :
    Matches I blocks bound' least' leads' b x r := by
  cases h with
  | ended hk hf hlead => exact .ended (Nat.le_trans hl hk) hf (hi _ _ hlead)
  | exhausted hk hf => exact .exhausted (Nat.le_trans hb hk) hf

theorem stay {ending} (h : leads ending (some b)) : Matches I blocks bound 0 leads b x ⟨[], x, ending⟩ :=
  .ended (Nat.zero_le 0) rfl h

theorem take (h : Matches I blocks bound least leads b x r) {taken} (hex : taken .exhausted = false)
    (htake : ∀ ending pos, taken ending = true → leads ending pos → leads' .normal pos)
    (hkeep : ∀ ending pos, taken ending = false → leads ending pos → leads' ending pos) :
    Matches I blocks bound least leads' b x (r.take taken) := by
  cases h with
  | @ended k trace y ending pos hk hf hlead =>
      cases ht : taken ending with
      | true =>
          simp only [Outcome.take, ht]
          exact .ended hk hf (htake _ _ ht hlead)
      | false =>
          simp only [Outcome.take, ht]
          exact .ended hk hf (hkeep _ _ ht hlead)
  | exhausted hk hf =>
      simp only [Outcome.take, hex]
      exact .exhausted hk hf

theorem behind {k trace t y}
    (hf : Block.follow I blocks k b x = ⟨trace, y, some t⟩) (h : Matches I blocks bound least leads t y r) :
    Matches I blocks (k + bound) (k + least) leads b x (r.behind trace) := by
  have hadd (m : Nat) : Block.follow I blocks (k + m) b x =
      (Block.follow I blocks m t y).behind trace := by
    have := Block.follow_add (m := m) (congrArg Progress.position hf)
    rwa [hf] at this
  cases h with
  | @ended m _ _ _ _ hk hf' hlead =>
      exact .ended (Nat.add_le_add_left hk k) (by rw [hadd m, hf']; rfl) hlead
  | @exhausted m _ _ _ hk hf' =>
      exact .exhausted (Nat.add_le_add_left hk k) (by rw [hadd m, hf']; rfl)

variable {next : σ → Outcome σ Unit}

variable (hc : Block.Closed blocks)

include hc

theorem andThen (hb : (Block.find? blocks b).isSome = true)
    (h : Matches I blocks bound least leads b x r) (hnone : ¬leads .normal none)
    (hnext : ∀ t y, leads .normal (some t) → (Block.find? blocks t).isSome = true →
      Matches I blocks bound' least' leads' t y (next y))
    (hrest : ∀ ending pos, ending ≠ .normal → leads ending pos → leads' ending pos) :
    Matches I blocks (min bound (least + bound')) least leads' b x (r.andThen next) := by
  cases h with
  | @ended k trace y ending pos hk hf hlead =>
      by_cases hn : ending = .normal
      · subst hn
        cases pos with
        | none => exact absurd hlead hnone
        | some t =>
            have ht := hc.isSome_find? hb (congrArg Progress.position hf)
            refine (behind hf (hnext t y hlead ht)).mono ?_ ?_ fun _ _ => id
            · exact Nat.le_trans (Nat.min_le_right ..) (Nat.add_le_add_right hk _)
            · exact Nat.le_trans hk (Nat.le_add_right ..)
      · rw [Outcome.andThen_of_ne hn]
        exact .ended hk hf (hrest _ _ hn hlead)
  | exhausted hk hf =>
      exact .exhausted (Nat.le_trans (Nat.min_le_left ..) hk) hf

theorem andThen_same (hb : (Block.find? blocks b).isSome = true)
    (h : Matches I blocks bound least leads b x r) (hnone : ¬leads .normal none)
    (hnext : ∀ t y, leads .normal (some t) → (Block.find? blocks t).isSome = true →
      Matches I blocks bound 0 leads' t y (next y))
    (hrest : ∀ ending pos, ending ≠ .normal → leads ending pos → leads' ending pos) :
    Matches I blocks bound least leads' b x (r.andThen next) :=
  (h.andThen hc hb hnone hnext hrest).mono (Nat.le_min.mpr ⟨Nat.le_refl _, Nat.le_add_left ..⟩)
    (Nat.le_refl _) fun _ _ => id

theorem step {block} (hb : Block.find? blocks b = some block) (hs : block.Sequential) (hh : leads (.returned none) none)
    (hnext : ∀ t y, block.exit.next? I y = some t → (Block.find? blocks t).isSome = true →
      Matches I blocks bound least leads t y (next y)) :
    Matches I blocks bound (least + 1) leads b x ((I.runAll block.stmts x).andThen next) := by
  rcases Interpretation.ending_runAll block.stmts x with hn | hn
  · obtain ⟨t, ht⟩ := hs.next? hn (I.runAll block.stmts x).state
    have hf : Block.follow I blocks 1 b x =
        ⟨(I.runAll block.stmts x).trace, (I.runAll block.stmts x).state, some t⟩ := by
      rw [Block.follow_of_next? hb hn ht]
      simp [Block.follow, Progress.behind]
    rw [Outcome.andThen_of_normal hn]
    have hblock := hc b block hb t (Exit.next?_mem ht)
    exact (behind hf (hnext t _ ht hblock)).mono (Nat.le_add_left ..) (Nat.add_comm .. ▸ Nat.le_refl _)
      fun _ _ => id
  · rw [Outcome.andThen_of_ne (by simp [hn])]
    have hlead : leads (I.runAll block.stmts x).ending none := hn ▸ hh
    exact .ended (Nat.le_refl _) (Block.follow_of_returned hb hn least) hlead

end Matches

theorem Matches.rounds (hc : Block.Closed blocks) {bound leads b} (hb : (Block.find? blocks b).isSome = true) {round}
    (hnormal : ∀ pos, leads .normal pos → pos = some b)
    (hround : ∀ x, Matches I blocks bound 1 leads b x (round x)) {m} (hm : m ≤ bound) (x : σ) :
    Matches I blocks m 1 (fun ending pos => ending ≠ .normal ∧ leads ending pos) b x (Source.rounds round m x) := by
  induction m generalizing x with
  | zero => exact .exhausted (Nat.zero_le 0) rfl
  | succ m ih =>
      have hnext : ∀ t y, leads .normal (some t) → (Block.find? blocks t).isSome = true →
          Matches I blocks m 1 (fun ending pos => ending ≠ .normal ∧ leads ending pos) t y
            (Source.rounds round m y) := by
        intro t y ht _
        obtain rfl : t = b := by simpa using hnormal _ ht
        exact ih (Nat.le_of_succ_le hm) y
      have hnone : ¬leads .normal none := fun h => by simpa using hnormal _ h
      refine ((hround x).andThen hc hb hnone hnext fun _ _ hn hl => ⟨hn, hl⟩).mono ?_ (Nat.le_refl 1)
        fun _ _ => id
      exact Nat.le_min.mpr ⟨hm, Nat.add_comm m 1 ▸ Nat.le_refl _⟩

end

/-! ## Where endings lead -/

namespace Walk

/-- Where control is after a ending inside some enclosing constructs: after a normal end at `next`,
and after a jump at a place of the construct it is for. A label is only jumped to when it is used. -/
inductive Leads (scopes : List Enclosing) (used : List Nat) (next : Option BlockId) :
    Source.Ending Unit → Option BlockId → Prop where
  | normal {b} (h : next = some b) : Leads scopes used next .normal (some b)
  | broke {e b} (he : scopes.head? = some e) (hf : e.follow = some b) :
      Leads scopes used next (.broke none) (some b)
  | continued {e b} (he : scopes.head? = some e) (hf : e.continueTarget = some b) :
      Leads scopes used next (.continued none) (some b)
  | brokeTo {e b} (he : e ∈ scopes) (hu : e.label ∈ used) (hf : e.follow = some b) :
      Leads scopes used next (.broke (some (labelName e.label))) (some b)
  | continuedTo {e b} (he : e ∈ scopes) (hu : e.label ∈ used) (hf : e.continueTarget = some b) :
      Leads scopes used next (.continued (some (labelName e.label))) (some b)
  | returned : Leads scopes used next (.returned none) none

theorem labelName_injective {m n} (h : labelName m = labelName n) : m = n := by
  have hd : Nat.toDigits 10 m = Nat.toDigits 10 n := by
    simpa [labelName] using congrArg String.toList h
  rw [← Nat.ofDigitChars_ten_toDigits (n := m), hd, Nat.ofDigitChars_ten_toDigits]

namespace Leads

variable {scopes : List Enclosing} {used used' : List Nat} {next next' : Option BlockId}
  {ending : Source.Ending Unit} {pos : Option BlockId}

theorem mono (h : Leads scopes used next ending pos) (hu : used ⊆ used')
    (hn : ∀ b, next = some b → next' = some b) : Leads scopes used' next' ending pos := by
  cases h with
  | normal h => exact .normal (hn _ h)
  | broke he hf => exact .broke he hf
  | continued he hf => exact .continued he hf
  | brokeTo he hl hf => exact .brokeTo he (hu hl) hf
  | continuedTo he hl hf => exact .continuedTo he (hu hl) hf
  | returned => exact .returned

theorem of_normal (h : Leads scopes used next .normal pos) : pos = next := by
  cases h with
  | normal h => exact h.symm

theorem not_normal_none : ¬Leads scopes used next .normal none := nofun

theorem of_ne (h : Leads scopes used next ending pos) (hn : ending ≠ .normal) : Leads scopes used next' ending pos := by
  cases h with
  | normal h => exact absurd rfl hn
  | broke he hf => exact .broke he hf
  | continued he hf => exact .continued he hf
  | brokeTo he hl hf => exact .brokeTo he hl hf
  | continuedTo he hl hf => exact .continuedTo he hl hf
  | returned => exact .returned

end Leads

def ownLabels (used : List Nat) (label : Nat) : List String :=
  if used.contains label then [labelName label] else []

theorem mem_ownLabels {used label name} : name ∈ ownLabels used label ↔ label ∈ used ∧ name = labelName label := by
  unfold ownLabels
  split <;> simp_all

def breaksTo (own : List String) (ending : Source.Ending Unit) : Bool := own.any fun name => ending.breaks (some name)

theorem breaksTo_eq_true {own ending} : breaksTo own ending = true ↔ ∃ name ∈ own, ending = .broke (some name) := by
  simp [breaksTo, Source.Ending.breaks_eq_true]

section

variable {σ : Type u} {I : Interpretation σ} {blocks : List Block} {scopes : List Enclosing}
  {used : List Nat} {head : Enclosing} {next : Option BlockId} {ending : Source.Ending Unit}
  {pos : Option BlockId}

theorem Leads.of_broke (h : Leads (head :: scopes) used next (.broke none) pos) :
    Leads scopes used head.follow .normal pos := by
  cases h with
  | broke he hf =>
      cases he
      exact .normal hf

theorem Leads.of_breaksTo (hlab : ∀ e ∈ scopes, e.label < head.label)
    (h : Leads (head :: scopes) used next ending pos) (hb : breaksTo (ownLabels used head.label) ending = true) :
    Leads scopes used head.follow .normal pos := by
  obtain ⟨name, hname, rfl⟩ := breaksTo_eq_true.mp hb
  obtain ⟨-, rfl⟩ := mem_ownLabels.mp hname
  generalize hs : Source.Ending.broke (some (labelName head.label)) = ending at h
  cases h with
  | @brokeTo e b he hu hf =>
      injection hs with hs
      injection hs with hs
      rcases List.mem_cons.mp he with rfl | he
      · exact .normal hf
      · exact absurd (labelName_injective hs) (Nat.ne_of_gt (hlab e he))
  | _ => cases hs

theorem Leads.of_outer (h : Leads (head :: scopes) used next ending pos) (hn : ending ≠ .normal)
    (hb : ending ≠ .broke none) (hbs : breaksTo (ownLabels used head.label) ending = false)
    (hcs : ending.resumes (ownLabels used head.label) = false) : Leads scopes used next ending pos := by
  have hout : ∀ e, e ∈ head :: scopes → e.label ∈ used →
      labelName e.label ∉ ownLabels used head.label → e ∈ scopes := by
    intro e he hu hname
    rcases List.mem_cons.mp he with rfl | he
    · exact absurd (mem_ownLabels.mpr ⟨hu, rfl⟩) hname
    · exact he
  cases h with
  | normal h => exact absurd rfl hn
  | broke he hf => exact absurd rfl hb
  | continued he hf => cases hcs
  | brokeTo he hu hf =>
      refine .brokeTo (hout _ he hu fun hname => ?_) hu hf
      exact absurd (breaksTo_eq_true.mpr ⟨_, hname, rfl⟩) (by simp [hbs])
  | continuedTo he hu hf =>
      refine .continuedTo (hout _ he hu fun hname => ?_) hu hf
      simp [Source.Ending.resumes, hname] at hcs
  | returned => exact .returned

/-- What is known of one round of a loop: a `continue` of its own only ends the round. -/
def InRound (scopes : List Enclosing) (used : List Nat) (head : Enclosing) (next : Option BlockId)
    (ending : Source.Ending Unit) (pos : Option BlockId) : Prop :=
  Leads (head :: scopes) used next ending pos ∧
    ending.resumes (ownLabels used head.label) = false

theorem matches_loop (hc : Block.Closed blocks) {b}
    (hb : (Block.find? blocks b).isSome = true) (hlab : ∀ e ∈ scopes, e.label < head.label) {round n}
    (hround : ∀ x, Matches I blocks n 1 (InRound scopes used head (some b)) b x (round x)) (x : σ) :
    Matches I blocks n 1 (Leads scopes used head.follow) b x (((Source.rounds round n x).take (·.breaks none)).take
        (breaksTo (ownLabels used head.label))) := by
  have hrounds := Matches.rounds hc hb (fun _ h => h.1.of_normal) hround (Nat.le_refl n) x
  have hleave : Matches I blocks n 1
      (fun ending pos => (ending = .normal ∧ Leads scopes used head.follow .normal pos) ∨
        (ending ≠ .normal ∧ ending ≠ .broke none) ∧ InRound scopes used head (some b) ending pos) b x
      ((Source.rounds round n x).take (·.breaks none)) := by
    refine hrounds.take rfl ?_ ?_
    · rintro ending pos ht ⟨-, h, -⟩
      obtain rfl := Source.Ending.breaks_eq_true.mp ht
      exact .inl ⟨rfl, h.of_broke⟩
    · rintro ending pos ht ⟨hn, h⟩
      exact .inr ⟨⟨hn, fun hb => by simp [hb, Source.Ending.breaks] at ht⟩, h⟩
  refine hleave.take ?_ ?_ ?_
  · simp [breaksTo, Source.Ending.breaks]
  · rintro ending pos ht (⟨rfl, h⟩ | ⟨-, h, -⟩)
    · exact h
    · exact h.of_breaksTo hlab ht
  · rintro ending pos ht (⟨rfl, h⟩ | ⟨⟨hn, hb⟩, h, hr⟩)
    · exact h
    · exact (h.of_outer hn hb ht hr).of_ne hn

end

end Walk

end JvmLift

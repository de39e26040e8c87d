import Mathlib
import Entangle.Proofs.CircuitShape

/-!
# Pulse modes

The mode of a decomposer says what happens where a pulse form does not apply: the synthesis fails, the plain circuit
takes its place, or no form is looked for. What a mode that demands the form finds, a mode that allows it finds too,
and only the first ever reports that a form is not supported: for two or three entangling gates. Where no form can
apply, allowing it is the same as not looking for it. All this holds over every arithmetic.
-/

namespace Entangle

open Circuit (Sequence Instruction)
open Gate (Operation Standard)

variable {α β γ : Type}

/-! ## Faults of other causes -/

/-- A computation that never reports that a pulse form is not supported. -/
def Outcome.PulseFree (outcome : Outcome α β) : Prop :=
  ∀ fault, outcome = .error fault → fault.cause? ≠ some .unsupportedPulse

namespace Outcome.PulseFree

variable {outcome : Outcome α β} {next : β → Outcome α γ}

theorem ok (result : β) : PulseFree (.ok result : Outcome α β) := by
  intro fault failed
  cases failed

theorem error {fault : Fault α} (other : fault.cause? ≠ some .unsupportedPulse) :
    PulseFree (.error fault : Outcome α β) := by
  intro fault' failed
  obtain rfl := Except.error.inj failed
  exact other

theorem plain {cause : Cause} (other : cause ≠ .unsupportedPulse) : PulseFree (.error (.plain cause) : Outcome α β) :=
  .error fun same => other (Option.some.inj same)

theorem placed {cause : Cause} (other : cause ≠ .unsupportedPulse) (place : Place α) :
    PulseFree (.error (cause.within place) : Outcome α β) :=
  .error fun same => other (Option.some.inj same)

theorem bind (first : PulseFree outcome) (second : ∀ b, PulseFree (next b)) :
    PulseFree (do next (← outcome)) := by
  intro fault failed
  rcases bind_eq_error.mp failed with failed | ⟨b, -, failed⟩
  · exact first fault failed
  · exact second b fault failed

/-- A place does not change the cause. -/
theorem within (inner : PulseFree outcome) (place : Place α) : PulseFree (outcome.within place) := by
  intro fault failed
  obtain ⟨cause, earlier, rfl⟩ := mapError_eq_error.mp failed
  exact inner cause earlier

theorem step (inner : PulseFree outcome) (name : String) : PulseFree (outcome.step name) := inner.within _

end Outcome.PulseFree

namespace Synthesis

/-- An attempt that never reports it. -/
def Attempt.PulseFree (attempt : Attempt α β) : Prop :=
  ∀ fault, attempt = .error (some fault) → fault.cause? ≠ some .unsupportedPulse

namespace Attempt.PulseFree

variable {attempt : Attempt α β} {next : β → Attempt α γ}

theorem ok (result : β) : PulseFree (.ok result : Attempt α β) := by
  intro fault failed
  cases failed

theorem none : PulseFree (.error none : Attempt α β) := by
  intro fault failed
  cases failed

theorem ofOutcome {outcome : Outcome α β} (free : outcome.PulseFree) : PulseFree (.ofOutcome outcome) := by
  intro fault failed
  obtain ⟨inner, failed', same⟩ := mapError_eq_error.mp failed
  obtain rfl := Option.some.inj same
  exact free inner failed'

theorem bind (first : PulseFree attempt) (second : ∀ b, attempt = .ok b → PulseFree (next b)) :
    PulseFree (do next (← attempt)) := by
  intro fault failed
  rcases bind_eq_error.mp failed with failed | ⟨b, result, failed⟩
  · exact first fault failed
  · exact second b result fault failed

end Attempt.PulseFree

end Synthesis

open Outcome (PulseFree)

variable [Scalar α]

namespace Euler

theorem pulseFree_ofUnitary (u : Mat2 α) (basis : Basis) : PulseFree (Angles.ofUnitary u basis) := by
  unfold Angles.ofUnitary
  split
  · exact .ok _
  · exact .plain (by decide)

theorem pulseFree_decompose (u : Mat2 α) (basis : Basis) (o : Options α) : PulseFree (decompose u basis o) := by
  unfold decompose
  split
  · exact .ok _
  · exact .plain (by decide)

end Euler

namespace Weyl

theorem pulseFree_product (u : Mat4 α) : PulseFree (Product.decompose u) := by
  refine PulseFree.step ?_ _
  dsimp only
  split
  · exact .placed (by decide) _
  split
  · exact .placed (by decide) _
  · exact .ok _

theorem pulseFree_diagonalize (m : Mat4 α) : PulseFree (diagonalize m) := by
  unfold diagonalize
  split
  · exact .ok _
  · exact .step (.placed (by decide) _) _

theorem pulseFree_canonicalForm (u : Mat4 α) : PulseFree (canonicalForm u) := by
  unfold canonicalForm
  dsimp only
  split
  · exact .step (.plain (by decide)) _
  · refine (pulseFree_diagonalize _).bind fun d => .bind ?_ fun f => .ok _
    exact ((pulseFree_product _).step _).bind fun outer => ((pulseFree_product _).step _).bind fun inner => .ok _

theorem pulseFree_fit (f : Form α) (k : Class) : PulseFree (f.fit k) := by
  have angles (u : Mat2 α) (basis : Euler.Basis) := Euler.pulseFree_ofUnitary u basis
  cases k with
  | general | identity | swap | partialSwap | partialSwapFlip => exact .ok _
  | controlled | mirrorControlled => exact (angles _ _).bind fun l => (angles _ _).bind fun r => .ok _
  | aab | abb | abmb => exact (angles _ _).bind fun l => .ok _

theorem pulseFree_ofUnitary (u : Mat4 α) (o : Options α) : PulseFree (Decomposition.ofUnitary u o) := by
  refine (pulseFree_canonicalForm u).bind fun f => .step ((pulseFree_fit f _).bind fun fit => ?_) _
  dsimp only
  split
  · exact .error (Option.some_ne_none _).symm
  · exact .ok _

end Weyl

namespace Synthesis

open Weyl (Decomposition)

namespace Decomposer

variable {d : Decomposer α} {s : Sequence α}

/-! ## Circuits -/

theorem pulseFree_appendOneQubit (d : Decomposer α) (s : Sequence α) (u : Mat2 α) (q : ℤ) :
    PulseFree (d.appendOneQubit s u q) :=
  (Euler.pulseFree_decompose u _ _).bind fun _ => .ok _

theorem pulseFree_appendLayer (d : Decomposer α) (s : Sequence α) (layer : Layer α) : PulseFree (d.appendLayer s layer) :=
  (d.pulseFree_appendOneQubit s _ _).bind fun t => d.pulseFree_appendOneQubit t _ _

theorem pulseFree_interleave (d : Decomposer α) (layers : List (Layer α)) (s : Sequence α) :
    PulseFree (d.interleave layers s) := by
  induction layers generalizing s with
  | nil => exact .ok _
  | cons layer rest ih =>
    cases rest with
    | nil => exact d.pulseFree_appendLayer s layer
    | cons next others => exact (d.pulseFree_appendLayer s layer).bind fun t => ih _

theorem pulseFree_splitLayers (layers : List (Layer α)) (phase : α) : PulseFree (splitLayers layers phase) := by
  induction layers generalizing phase with
  | nil => exact .ok _
  | cons layer rest ih =>
    exact (Euler.pulseFree_ofUnitary _ _).bind fun r => (Euler.pulseFree_ofUnitary _ _).bind fun l =>
      (ih _).bind fun found => .ok _

theorem pulseFree_twoGatePulse (d : Decomposer α) (layers : List (Layer α)) (target : Decomposition α) :
    (d.twoGatePulse layers target).PulseFree := by
  refine .ofOutcome ((pulseFree_splitLayers layers 0).bind fun found => ?_)
  dsimp only
  split
  · exact (d.pulseFree_appendLayer _ _).bind fun t => d.pulseFree_appendLayer _ _
  · exact .ok _

theorem pulseFree_rootOrRotation (d : Decomposer α) (s : Sequence α) (theta : α) (q : ℤ) :
    (d.rootOrRotation s theta q).PulseFree := by
  unfold rootOrRotation
  split
  · exact .ok _
  split
  · exact .none
  · exact .ofOutcome (d.pulseFree_appendOneQubit s _ _)

theorem pulseFree_threeGateSequence (d : Decomposer α) (a b c e : Split α) (phase : α) :
    (d.threeGateSequence a b c e phase).PulseFree := by
  rw [threeGateSequence_eq]
  refine .bind (.bind (.ofOutcome (d.pulseFree_appendLayer _ _)) fun t _ => ?_) fun start _ => ?_
  · dsimp only
    split
    · exact d.pulseFree_rootOrRotation _ _ _
    · exact .ok _
  · exact .bind (d.pulseFree_rootOrRotation _ _ _) fun t _ => .bind (d.pulseFree_rootOrRotation _ _ _) fun t' _ =>
      .ofOutcome (d.pulseFree_appendLayer _ _)

/-- The comparison with the target does not fail: the circuit can be carried out. -/
theorem pulseFree_threeGatePulse (root : d.HasRoot) (layers : List (Layer α)) (target : Decomposition α) :
    (d.threeGatePulse layers target).PulseFree := by
  refine .bind (.ofOutcome (pulseFree_splitLayers layers 0)) fun found _ => ?_
  dsimp only
  split
  · refine .bind (d.pulseFree_threeGateSequence _ _ _ _ _) fun t sequenced => ?_
    have sound : t.Over Instruction.Sound := (over_threeGateSequence root sequenced).mono fun i woven =>
      woven.sound ⟨.cx, rfl, rfl, .inr ⟨rfl, .inr rfl⟩⟩
    obtain ⟨w, computed⟩ := Sequence.exists_unitary sound
    rw [computed]
    refine .bind (.ok w) fun u _ => ?_
    split
    · exact .ok _
    · exact .none
  · exact .none

theorem pulseFree_pulseForm (root : d.HasRoot) (n : Fin 4) (layers : List (Layer α)) (target : Decomposition α) :
    (d.pulseForm n layers target).PulseFree := by
  unfold pulseForm
  split
  · exact d.pulseFree_twoGatePulse layers target
  · exact pulseFree_threeGatePulse root layers target

/-- Only a demanded form is reported as not supported. -/
theorem pulseFree_pulse (allowed : d.options.pulse ≠ .required) (n : Fin 4) (layers : List (Layer α))
    (target : Decomposition α) : (d.pulse n layers target).PulseFree := by
  rcases d.pulse_cases n layers target with ⟨-, none⟩ | ⟨-, -, place, refused⟩ | ⟨-, root, -, -, same⟩
  · rw [none]
    exact .none
  · rw [refused, refusal, if_neg allowed]
    exact .none
  · rw [same]
    exact pulseFree_pulseForm root n layers target

theorem pulseFree_generic (d : Decomposer α) (n : Fin 4) (layers : List (Layer α)) (target : Decomposition α) :
    PulseFree (d.generic n layers target) :=
  d.pulseFree_interleave layers _

/-- Where no pulse form is found, the plain circuit stands. -/
theorem realize_of_none {n : Fin 4} {target : Decomposition α}
    (none : d.pulse n (d.corrections n target) target = .error none) :
    d.realize n target = d.generic n (d.corrections n target) target := by
  unfold realize
  dsimp only
  split
  · rfl
  · rw [none]

theorem pulseFree_realize (allowed : d.options.pulse ≠ .required) (n : Fin 4) (target : Decomposition α) :
    PulseFree (d.realize n target) := by
  have free := pulseFree_pulse allowed n (d.corrections n target) target
  unfold realize
  dsimp only
  split
  · exact d.pulseFree_generic n _ target
  split
  next => exact .ok _
  next fault failed => exact .error (free fault failed)
  next => exact d.pulseFree_generic n _ target

/-- For none and one entangling gate nothing is reported in any mode. -/
theorem pulseFree_realize_few {n : Fin 4} (few : n = 0 ∨ n = 1) (target : Decomposition α) : PulseFree (d.realize n target) := by
  rw [realize_of_none (by rw [pulse, if_pos few])]
  exact d.pulseFree_generic n _ target

/-! ## From mode to mode -/

/-- The decomposer in a given mode. -/
def inMode (d : Decomposer α) (m : PulseMode) : Decomposer α := { d with options := d.options.withPulse m }

omit [Scalar α] in
@[simp]
theorem pulse_inMode (d : Decomposer α) (m : PulseMode) : (d.inMode m).options.pulse = m := rfl

/-- The mode is no part of what a decomposer computes beforehand. -/
theorem ofGate_inMode {gate : Operation α} {params : List α} {o : Options α} (built : ofGate gate params o = .ok d)
    (m : PulseMode) : ofGate gate params (o.withPulse m) = .ok (d.inMode m) := by
  obtain ⟨u, stored, made⟩ := bind_eq_ok.mp built
  obtain ⟨⟨⟩, checked, rest⟩ := bind_eq_ok.mp (Outcome.step_eq_ok.mp made)
  obtain ⟨basis, decomposed, result⟩ := bind_eq_ok.mp rest
  obtain rfl := Except.ok.inj result
  exact bind_eq_ok.mpr ⟨u, stored, Outcome.step_eq_ok.mpr (bind_eq_ok.mpr ⟨(), checked,
    bind_eq_ok.mpr ⟨basis, decomposed, rfl⟩⟩)⟩

theorem interleave_inMode (d : Decomposer α) (m : PulseMode) (layers : List (Layer α)) (s : Sequence α) :
    (d.inMode m).interleave layers s = d.interleave layers s := by
  induction layers generalizing s with
  | nil => rfl
  | cons layer rest ih =>
    cases rest with
    | nil => rfl
    | cons next others => exact bind_congr fun t => ih _

theorem generic_inMode (d : Decomposer α) (m : PulseMode) (n : Fin 4) (layers : List (Layer α)) (target : Decomposition α) :
    (d.inMode m).generic n layers target = d.generic n layers target :=
  d.interleave_inMode m layers _

/-- A rotation that stands where the square root of `X` is demanded stands where it is not. -/
theorem rootOrRotation_allowed {theta : α} {q : ℤ} {t : Sequence α}
    (demanded : (d.inMode .required).rootOrRotation s theta q = .ok t) : (d.inMode .auto).rootOrRotation s theta q = .ok t := by
  unfold rootOrRotation at demanded ⊢
  split at demanded
  next near => rwa [if_pos near]
  next =>
    rw [if_pos (d.pulse_inMode .required)] at demanded
    cases demanded

theorem threeGateSequence_allowed {a b c e : Split α} {phase : α}
    (demanded : (d.inMode .required).threeGateSequence a b c e phase = .ok s) :
    (d.inMode .auto).threeGateSequence a b c e phase = .ok s := by
  rw [threeGateSequence_eq] at demanded ⊢
  obtain ⟨start, started, finished⟩ := bind_eq_ok.mp demanded
  obtain ⟨t, first, joined⟩ := bind_eq_ok.mp started
  obtain ⟨t₁, second, rest⟩ := bind_eq_ok.mp finished
  obtain ⟨t₂, third, last⟩ := bind_eq_ok.mp rest
  have started' : (d.inMode .auto).threeStart a b (.ofAngle (b.right.last + c.right.first)) phase = .ok start := by
    refine bind_eq_ok.mpr ⟨t, first, ?_⟩
    dsimp only at joined ⊢
    split at joined
    next turned =>
      rw [if_pos turned]
      exact rootOrRotation_allowed joined
    next still => rwa [if_neg still]
  exact bind_eq_ok.mpr ⟨start, started', bind_eq_ok.mpr ⟨t₁, rootOrRotation_allowed second, bind_eq_ok.mpr ⟨t₂,
    rootOrRotation_allowed third, last⟩⟩⟩

theorem pulseForm_allowed {n : Fin 4} {layers : List (Layer α)} {target : Decomposition α}
    (demanded : (d.inMode .required).pulseForm n layers target = .ok s) :
    (d.inMode .auto).pulseForm n layers target = .ok s := by
  unfold pulseForm at demanded ⊢
  split at demanded
  next two =>
    rw [if_pos two]
    exact demanded
  next other =>
    rw [if_neg other]
    obtain ⟨⟨splits, phase⟩, split, rest⟩ := bind_eq_ok.mp demanded
    refine bind_eq_ok.mpr ⟨(splits, phase), split, ?_⟩
    dsimp only at rest ⊢
    split at rest
    next a b c e =>
      obtain ⟨t, sequenced, tested⟩ := bind_eq_ok.mp rest
      exact bind_eq_ok.mpr ⟨t, threeGateSequence_allowed sequenced, tested⟩
    next => cases rest

/-- What is found where a form is demanded is found where it is allowed. -/
theorem realize_allowed {n : Fin 4} {target : Decomposition α} (demanded : (d.inMode .required).realize n target = .ok s) :
    (d.inMode .auto).realize n target = .ok s := by
  rcases realize_eq_ok demanded with ⟨-, applied⟩ | ⟨off | none, joined⟩
  · obtain ⟨several, root, gate, formed⟩ := pulse_eq_ok.mp applied
    have allowed : (d.inMode .auto).pulse n ((d.inMode .auto).corrections n target) target = .ok s :=
      pulse_eq_ok.mpr ⟨several, root, gate, pulseForm_allowed formed⟩
    unfold realize
    dsimp only
    rw [allowed]
    rfl
  · cases off
  · rcases (d.inMode .required).pulse_cases n ((d.inMode .required).corrections n target) target with
      ⟨few, -⟩ | ⟨-, -, place, refused⟩ | ⟨-, -, -, applies, same⟩
    · rw [realize_of_none (by rw [pulse, if_pos few]), generic_inMode]
      rwa [generic_inMode] at joined
    · rw [refused, refusal, if_pos (d.pulse_inMode .required)] at none
      cases none
    · exact absurd (same.symm.trans none) applies

theorem pulseFree_synthesize (allowed : d.options.pulse ≠ .required) (u : Mat4 α) (r : Request α) :
    PulseFree (d.synthesize u r) :=
  ((Weyl.pulseFree_ofUnitary u .default).bind fun target => pulseFree_realize allowed _ target).step _

/-- Where no pulse form can apply, allowing it is the same as not looking for it. -/
theorem realize_unsuited {n : Fin 4} {target : Decomposition α}
    (unsuited : (n = 0 ∨ n = 1) ∨ ¬ (d.HasRoot ∧ d.gate = .standard .cx)) :
    (d.inMode .auto).realize n target = (d.inMode .off).realize n target := by
  have refused : (d.inMode .auto).pulse n ((d.inMode .auto).corrections n target) target = .error none := by
    rcases (d.inMode .auto).pulse_cases n ((d.inMode .auto).corrections n target) target with
      ⟨-, none⟩ | ⟨-, -, place, refused⟩ | ⟨several, root, gate, -, -⟩
    · exact none
    · rw [refused, refusal, pulse_inMode, if_neg (by decide)]
    · rcases unsuited with few | other
      · omega
      · exact absurd ⟨root, gate⟩ other
  rw [realize_of_none refused, realize, if_pos (d.pulse_inMode .off), generic_inMode, generic_inMode]
  rfl

/-- The same synthesis in the three modes. What is found where a pulse form is demanded is found where it is allowed; only
a demanded form is reported as not supported, and only for two or three entangling gates; and where there are fewer
gates, another gate set or another gate, allowing the form makes no difference. -/
theorem synthesize_modes {gate : Operation α} {params : List α} {o : Options α} (built : ofGate gate params o = .ok d)
    (u : Mat4 α) (r : Request α) :
    (∀ m, ofGate gate params (o.withPulse m) = .ok (d.inMode m)) ∧
    (∀ s, (d.inMode .required).synthesize u r = .ok s → (d.inMode .auto).synthesize u r = .ok s) ∧
    (∀ m fault, (d.inMode m).synthesize u r = .error fault → fault.cause? = some .unsupportedPulse →
      m = .required ∧ ∃ target, Decomposition.ofUnitary u .default = .ok target ∧
        (d.countFor target r = 2 ∨ d.countFor target r = 3)) ∧
    ((∀ target, Decomposition.ofUnitary u .default = .ok target → d.countFor target r = 0 ∨ d.countFor target r = 1) ∨
        (o.euler ≠ .zsx ∧ o.euler ≠ .zsxx) ∨ gate ≠ .standard .cx →
      (d.inMode .auto).synthesize u r = (d.inMode .off).synthesize u r) := by
  obtain ⟨-, -, -, -, parts⟩ := ofGate_eq_ok built
  have gateIs : d.gate = gate := by rw [parts]
  have optionsAre : d.options = o := by rw [parts]
  refine ⟨ofGate_inMode built, fun s demanded => ?_, fun m fault failed unsupported => ?_, fun unsuited => ?_⟩
  · obtain ⟨target, fitted, realized⟩ := bind_eq_ok.mp (Outcome.step_eq_ok.mp demanded)
    exact Outcome.step_eq_ok.mpr (bind_eq_ok.mpr ⟨target, fitted, realize_allowed realized⟩)
  · have required : m = .required := by
      by_contra other
      exact pulseFree_synthesize (d := d.inMode m) other u r fault failed unsupported
    obtain ⟨inner, failed', rfl⟩ := mapError_eq_error.mp failed
    rcases bind_eq_error.mp failed' with undecomposed | ⟨target, fitted, unrealized⟩
    · exact absurd unsupported (Weyl.pulseFree_ofUnitary u .default inner undecomposed)
    · refine ⟨required, target, fitted, ?_⟩
      have several : ¬ (d.countFor target r = 0 ∨ d.countFor target r = 1) := fun few =>
        pulseFree_realize_few (d := d.inMode m) few target inner unrealized unsupported
      omega
  · refine congrArg (Outcome.step "Synthesize") ?_
    cases fitted : Decomposition.ofUnitary u .default with
    | error fault => rfl
    | ok target =>
      refine realize_unsuited (n := d.countFor target r) ?_
      rcases unsuited with few | basis | other
      · exact .inl (few target fitted)
      · refine .inr fun suited => ?_
        rcases hasRoot_iff.mp suited.1 with zsx | zsxx
        · exact basis.1 (optionsAre ▸ zsx)
        · exact basis.2 (optionsAre ▸ zsxx)
      · exact .inr fun suited => other (gateIs.symm.trans suited.2)

open Weyl (single) in
/-- A rotation about the third axis by one radian, twice over itself: there is no pulse form over that gate, so that
demanding it fails and allowing it gives the plain circuit. -/
theorem synthesize_modes_rzz :
    ∃ (d : Decomposer ℝ) (s : Sequence ℝ) (fault : Fault ℝ), ofGate (.standard .rzz) [1] ⟨1, .zsx, .off⟩ = .ok d ∧
      (d.inMode .off).synthesize (single .z (-1 / 2)) .default = .ok s ∧
      (d.inMode .auto).synthesize (single .z (-1 / 2)) .default = .ok s ∧
      (d.inMode .required).synthesize (single .z (-1 / 2)) .default = .error fault ∧
      fault.cause? = some .unsupportedPulse := by
  have pi := Real.pi_gt_three
  have half : |(-1 / 2 : ℝ)| = 1 / 2 := by rw [abs_of_neg] <;> norm_num
  have whole : |(1 : ℝ)| = 1 := abs_one
  obtain ⟨d, built, options, gate, -, a, b, c⟩ := ofGate_rzz ⟨1, .zsx, .off⟩ 1 (by linarith) (by linarith)
  obtain ⟨target, fitted, -, -, first, second, third⟩ := Weyl.ofUnitary_single .z (t := -1 / 2) (by linarith) (by linarith)
  have two : d.countFor target .default = 2 := by
    rw [countFor_own (by rw [options]) fitted (second.trans b.symm), first, third, half, if_neg (by norm_num),
      if_neg (fun full => by linarith [full.1]), if_pos rfl]
  obtain ⟨-, -, -, same⟩ := synthesize_modes built (single .z (-1 / 2)) .default
  obtain ⟨s, synthesized, -⟩ := exists_synthesize (d := d.inMode .off) rfl fitted .default
  have other : d.gate ≠ .standard .cx := by
    rw [gate]
    intro controlled
    cases controlled
  rcases (d.inMode .required).pulse_cases 2 ((d.inMode .required).corrections 2 target) target with
    ⟨few, -⟩ | ⟨-, -, place, refused⟩ | ⟨-, -, controlled, -⟩
  · exact absurd few (by decide)
  · refine ⟨d, s, .within (.step "Synthesize") (unsupported place), built, synthesized, ?_, ?_, rfl⟩
    · rw [same (.inr (.inr (gate ▸ other)))]
      exact synthesized
    · refine mapError_eq_error.mpr ⟨unsupported place, bind_eq_error.mpr (.inr ⟨target, fitted, ?_⟩), rfl⟩
      have count : (d.inMode .required).countFor target .default = 2 := two
      rw [count]
      unfold realize
      dsimp only
      rw [refused, refusal, if_pos (d.pulse_inMode .required)]
      rfl
  · exact absurd controlled other

end Decomposer

end Synthesis

end Entangle

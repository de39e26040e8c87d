import Mathlib
import Entangle.Proofs.GateCount
import Entangle.Proofs.LocalInvariance

/-!
# The requested fidelity

The class of a form is chosen by the fidelity of its points, and the fit to the class reaches that fidelity: the two
agree in every class on the point that the angles are moved to. As long as no class is forced, a request is therefore
missed by no unitary that has a canonical form, and whatever has none fails for another reason.
-/

namespace Entangle

variable {α : Type}

/-! ## Faults -/

/-- The fitted class misses the requested fidelity, at whatever place this was found. -/
def Fault.IsFidelity : Fault α → Prop
  | fidelity _ _ _ => True
  | within _ fault => fault.IsFidelity
  | _ => False

theorem Fault.IsFidelity.no_cause {fault : Fault α} (missed : fault.IsFidelity) : fault.cause? = none := by
  induction fault with
  | fidelity => rfl
  | within place inner ih => exact ih missed
  | _ => cases missed

/-- A named operation keeps the cause of a fault. -/
theorem Outcome.cause_of_step {β : Type} {name : String} {outcome : Outcome α β} {fault : Fault α}
    (failed : outcome.step name = .error fault) : ∃ inner, outcome = .error inner ∧ fault.cause? = inner.cause? := by
  obtain ⟨inner, before, rfl⟩ := mapError_eq_error.mp failed
  exact ⟨inner, before, rfl⟩

namespace Weyl

section Causes

variable [Scalar α] {fault : Fault α}

theorem Product.cause_of_decompose {u : Mat4 α} (failed : Product.decompose u = .error fault) :
    fault.cause? = some .notProduct := by
  obtain ⟨inner, failed, same⟩ := Outcome.cause_of_step failed
  rw [same]
  dsimp only at failed
  split at failed
  · cases failed
    rfl
  split at failed
  · cases failed
    rfl
  · cases failed

theorem cause_of_startFolding {up : Mat4 α} {d : Diagonalization α} {phase : α}
    (failed : startFolding up d phase = .error fault) : fault.cause? = some .notProduct := by
  unfold startFolding at failed
  dsimp only at failed
  rcases bind_eq_error.mp failed with failed | ⟨outer, -, failed⟩
  · obtain ⟨inner, failed, same⟩ := Outcome.cause_of_step failed
    rw [same, Product.cause_of_decompose failed]
  rcases bind_eq_error.mp failed with failed | ⟨inner, -, impossible⟩
  · obtain ⟨inner, failed, same⟩ := Outcome.cause_of_step failed
    rw [same, Product.cause_of_decompose failed]
  · cases impossible

theorem cause_of_diagonalize {m : Mat4 α} (failed : diagonalize m = .error fault) :
    fault.cause? = some .degenerateEigenproblem := by
  unfold diagonalize at failed
  split at failed
  · cases failed
  · cases failed
    rfl

/-- A matrix has no canonical form only for these causes. -/
theorem cause_of_canonicalForm {u : Mat4 α} (failed : canonicalForm u = .error fault) :
    fault.cause? = some .nonFiniteTarget ∨ fault.cause? = some .degenerateEigenproblem ∨
      fault.cause? = some .notProduct := by
  unfold canonicalForm at failed
  dsimp only at failed
  split at failed
  · cases failed
    exact .inl rfl
  rcases bind_eq_error.mp failed with failed | ⟨d, -, failed⟩
  · exact .inr (.inl (cause_of_diagonalize failed))
  rcases bind_eq_error.mp failed with failed | ⟨folding, -, impossible⟩
  · exact .inr (.inr (cause_of_startFolding failed))
  · cases impossible

theorem canonicalForm_not_fidelity {u : Mat4 α} (failed : canonicalForm u = .error fault) : ¬ fault.IsFidelity := by
  intro missed
  have cause := cause_of_canonicalForm failed
  rw [missed.no_cause] at cause
  simp at cause

end Causes

/-! ## Requests -/

/-- Every class fits every form. -/
theorem Form.exists_fit (f : Form ℝ) (k : Class) : ∃ fit, f.fit k = .ok fit := by
  cases k with
  | general | identity | swap | partialSwap | partialSwapFlip => exact ⟨_, rfl⟩
  | controlled => exact ⟨_, by rw [Form.fit, toControlled, ofUnitary_eq, ofUnitary_eq]; rfl⟩
  | mirrorControlled => exact ⟨_, by rw [Form.fit, toMirrorControlled, ofUnitary_eq, ofUnitary_eq]; rfl⟩
  | aab => exact ⟨_, by rw [Form.fit, toAab, ofUnitary_eq]; rfl⟩
  | abb => exact ⟨_, by rw [Form.fit, toAbb, ofUnitary_eq]; rfl⟩
  | abmb => exact ⟨_, by rw [Form.fit, toAbmb, ofUnitary_eq]; rfl⟩

section Requests

variable {u : Mat4 ℝ} {f : Form ℝ} {o : Options ℝ} {fidelity : ℝ}

theorem Options.missed_eq_none (requested : o.fidelity = some fidelity) {calculated : ℝ}
    (reached : fidelity ≤ calculated) : o.missed? calculated = none := by
  have allowed : ¬ calculated + 1e-13 < fidelity := by linarith
  simpa [missed?, requested] using allowed

/-- A form in the chamber has a decomposition that reaches the request. -/
theorem ofForm_reaches (chamber : f.InChamber) (free : o.forced = none) (requested : o.fidelity = some fidelity)
    (possible : fidelity ≤ 1) : ∃ target, Decomposition.ofForm u f o = .ok target ∧ fidelity ≤ target.calculated := by
  obtain ⟨fit, fitted⟩ := f.exists_fit (o.classFor f)
  have chosen : o.classFor f = f.nearestClass fidelity := by rw [Options.classFor, free, requested]
  have reaches : fidelity ≤ traceFidelity fit.trace := nearestClass_reaches chamber possible (chosen ▸ fitted)
  rw [Decomposition.ofForm]
  dsimp only
  rw [fitted]
  simp only [bind, Except.bind, Options.missed_eq_none requested reaches]
  exact ⟨_, rfl, reaches⟩

theorem Options.withFidelity_eq_ok (low : 0 ≤ fidelity) (high : fidelity ≤ 1) :
    o.withFidelity fidelity = .ok { o with fidelity := some fidelity } := by
  simp [withFidelity, Scalar.isProbability, low, high]

/-- Where no class is forced, no request between zero and one is missed: what is decomposed reaches it, whatever has
a canonical form is decomposed, and nothing fails for its fidelity. -/
theorem ofUnitary_reaches_request (free : o.forced = none) (low : 0 ≤ fidelity) (high : fidelity ≤ 1) (u : Mat4 ℝ) :
    ∃ o', o.withFidelity fidelity = .ok o' ∧
      (∀ fault, Decomposition.ofUnitary u o' = .error fault → ¬ fault.IsFidelity ∧ canonicalForm u = .error fault) ∧
      (∀ target, Decomposition.ofUnitary u o' = .ok target → fidelity ≤ target.calculated) ∧
      (u.Unitary → ExactlyDiagonalized u → ∃ target, Decomposition.ofUnitary u o' = .ok target) := by
  have reaches {f : Form ℝ} (canonical : canonicalForm u = .ok f) :
      ∃ target, Decomposition.ofForm u f { o with fidelity := some fidelity } = .ok target ∧
        fidelity ≤ target.calculated :=
    ofForm_reaches (canonicalForm_inChamber canonical) free rfl high
  refine ⟨_, Options.withFidelity_eq_ok low high, ?_, ?_, ?_⟩
  · intro fault failed
    rcases bind_eq_error.mp failed with failed | ⟨f, canonical, missed⟩
    · exact ⟨canonicalForm_not_fidelity failed, failed⟩
    · obtain ⟨target, decomposed, -⟩ := reaches canonical
      cases decomposed.symm.trans missed
  · intro target decomposed
    obtain ⟨f, canonical, kept⟩ := ofUnitary_eq_ok.mp decomposed
    obtain ⟨target', kept', reached⟩ := reaches canonical
    obtain rfl := Except.ok.inj (kept.symm.trans kept')
    exact reached
  · intro unitary exactly
    obtain ⟨f, canonical, -⟩ := exactly.exists_form unitary
    obtain ⟨target, decomposed, -⟩ := reaches canonical
    exact ⟨target, ofUnitary_eq_ok.mpr ⟨f, canonical, decomposed⟩⟩

/-- The swap point with a negative third angle. -/
noncomputable def negativeSwap : Mat4 ℝ := interaction (Real.pi / 4) (Real.pi / 4) (-(Real.pi / 4))

/-- It is decomposed at the highest request. -/
theorem ofUnitary_reaches_request_swap :
    ∃ o' target, Options.default.withFidelity 1 = .ok o' ∧ Decomposition.ofUnitary negativeSwap o' = .ok target ∧
      1 ≤ target.calculated := by
  obtain ⟨o', allowed, -, reached, succeeds⟩ :=
    ofUnitary_reaches_request (o := .default) rfl zero_le_one le_rfl negativeSwap
  obtain ⟨target, decomposed⟩ := succeeds (interaction_unitary _ _ _) (exactlyDiagonalized_interaction _ _ _)
  exact ⟨o', target, allowed, decomposed, reached target decomposed⟩

end Requests

end Weyl

end Entangle

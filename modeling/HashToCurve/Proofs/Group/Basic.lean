import HashToCurve.Group.Basic

/-!
# Outcomes of hashing

Hashing to a group computes its field elements, maps them, adds and clears the cofactor, and stops
at the first failure.  An outcome follows that of the expander if the request is rejected for the
reason that the expander gives, and the result is as wanted if the expander gives none.
-/

namespace HashToCurve

namespace HashGroup

variable {G : HashGroup} {E : Expander} {message tag : List Bytes}

/-- Hashing whose elements and points are computed gives their sum with the cofactor cleared. -/
theorem hash_eq_ok {v : Vector G.Element 2} {P Q : G.Point}
    (hv : G.elements E message tag 2 = .ok v) (hP : G.mapElement E (v.get 0) = .ok P)
    (hQ : G.mapElement E (v.get 1) = .ok Q) :
  G.hash E message tag = .ok (G.clearCofactor (G.add P Q))
  := by
  rw [hash, hv]
  change (G.mapElement E (v.get 0) >>= _) = _
  rw [hP]
  change (G.mapElement E (v.get 1) >>= _) = _
  rw [hQ]
  rfl

/-- Encoding whose element and point are computed gives the point with the cofactor cleared. -/
theorem encode_eq_ok {v : Vector G.Element 1} {P : G.Point}
    (hv : G.elements E message tag 1 = .ok v) (hP : G.mapElement E (v.get 0) = .ok P) :
  G.encode E message tag = .ok (G.clearCofactor P)
  := by
  rw [encode, hv]
  change (G.mapElement E (v.get 0) >>= _) = _
  rw [hP]
  rfl

/-- Hashing is rejected for the reason for which its elements are. -/
theorem hash_eq_rejected {reason : E.Rejection}
    (h : G.elements E message tag 2 = .error (.rejected reason)) :
  G.hash E message tag = .error (.rejected reason)
  := by
  rw [hash, h]
  rfl

/-- Encoding is rejected for the reason for which its element is. -/
theorem encode_eq_rejected {reason : E.Rejection}
    (h : G.elements E message tag 1 = .error (.rejected reason)) :
  G.encode E message tag = .error (.rejected reason)
  := by
  rw [encode, h]
  rfl

end HashGroup

/-! ### Outcomes that follow the expander -/

section Follows

variable {ε δ σ α : Type}

/-- The outcome of a request that an expander has answered: it is rejected for the reason of the
expander, or it is a result as wanted. -/
def Follows (start : Except ε σ) (reject : ε → δ) (wanted : α → Prop) (outcome : Except δ α) : Prop :=
  match start with
  | .error reason => outcome = .error (reject reason)
  | .ok _ => ∃ a, outcome = .ok a ∧ wanted a

variable {start : Except ε σ} {reject : ε → δ} {wanted : α → Prop} {outcome : Except δ α}

/-- An outcome whose rejections are reported in another way follows the expander as well. -/
theorem Follows.mapError {γ : Type} (h : Follows start reject wanted outcome) (f : δ → γ) :
  Follows start (fun reason => f (reject reason)) wanted (outcome.mapError f)
  := by
  cases start with
  | error reason =>
    rw [Follows] at h
    rw [h]
    rfl
  | ok s =>
    obtain ⟨a, rfl, ha⟩ := h
    exact ⟨a, rfl, ha⟩

/-- If the expander accepts, there is a result as wanted. -/
theorem Follows.of_ok (h : Follows start reject wanted outcome) {s : σ} (hs : start = .ok s) :
  ∃ a, outcome = .ok a ∧ wanted a
  := by
  rw [hs] at h
  exact h

/-- The reasons of the expander are the only failures. -/
theorem Follows.of_error (h : Follows start reject wanted outcome) {failure : δ}
    (hfailure : outcome = .error failure) :
  ∃ reason, start = .error reason ∧ failure = reject reason
  := by
  cases start with
  | error reason =>
    rw [Follows] at h
    rw [h] at hfailure
    exact ⟨reason, rfl, (Except.error.inj hfailure).symm⟩
  | ok s =>
    obtain ⟨a, rfl, -⟩ := h
    cases hfailure

/-- A result is obtained exactly when the expander accepts. -/
theorem Follows.isOk_eq (h : Follows start reject wanted outcome) :
  outcome.isOk = start.isOk
  := by
  cases start with
  | error reason =>
    rw [Follows] at h
    rw [h]
    rfl
  | ok s =>
    obtain ⟨a, rfl, -⟩ := h
    rfl

/-- It only matters whether the expander answers, and for which reason if not. -/
theorem Follows.of_map {τ : Type} (h : Follows start reject wanted outcome) (f : σ → τ)
    {verdict : Except ε τ} (hverdict : start.map f = verdict) :
  Follows verdict reject wanted outcome
  := by
  subst hverdict
  cases start with
  | error reason => exact h
  | ok s => exact h

end Follows

end HashToCurve

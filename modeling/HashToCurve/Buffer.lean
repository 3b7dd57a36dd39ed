/-!
# Buffers

An action on a buffer either replaces its content, or is refused and leaves the content as it
was.
-/

namespace HashToCurve.Buffer

/-- The action that replaces the content of a buffer by what `f` makes of it, and that is
refused where `f` fails. -/
def replaceBy {ε σ : Type} (f : σ → Except ε σ) : EStateM ε σ Unit := fun content =>
  match f content with
  | .ok content => .ok () content
  | .error refusal => .error refusal content

variable {ε σ : Type} {f : σ → Except ε σ} {content : σ}

theorem replaceBy_of_ok {new : σ} (h : f content = .ok new) :
  replaceBy f content = .ok () new
  := by rw [replaceBy, h]

theorem replaceBy_of_error {refusal : ε} (h : f content = .error refusal) :
  replaceBy f content = .error refusal content
  := by rw [replaceBy, h]

end HashToCurve.Buffer

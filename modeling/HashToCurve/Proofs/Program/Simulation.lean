import HashToCurve.Program
import Mathlib.Data.List.Forall2
import Mathlib.Data.Option.Basic

/-!
# Simulations between arithmetics

A relation between the elements of two arithmetics that all functions keep is kept by every
instruction, and so by every program: the runs of a program in both arithmetics return, show related
elements and end with related registers.
-/

namespace HashToCurve

/-! ### Computations that return -/

section Returns

variable {m n : Type → Type} [Monad m] [Monad n] {γ δ γ' δ' ε : Type}

/-- Both computations return, with related results. -/
def Returns (R : γ → δ → Prop) (x : m γ) (y : n δ) : Prop :=
  ∃ a b, x = pure a ∧ y = pure b ∧ R a b

/-- Related values, or the same obstacle. -/
inductive ExceptRel (R : γ → δ → Prop) : Except ε γ → Except ε δ → Prop where
  | ok {a : γ} {b : δ} (h : R a b) : ExceptRel R (.ok a) (.ok b)
  | error (e : ε) : ExceptRel R (.error e) (.error e)

/-- Both computations return, with related values or the same obstacle. -/
def Agree (R : γ → δ → Prop) (x : ExceptT ε m γ) (y : ExceptT ε n δ) : Prop :=
  Returns (ExceptRel R) x.run y.run

variable {R : γ → δ → Prop} {S : γ' → δ' → Prop}

theorem Returns.pure {a : γ} {b : δ} (h : R a b) :
  Returns R (Pure.pure a : m γ) (Pure.pure b : n δ)
  := ⟨a, b, rfl, rfl, h⟩

namespace Agree

theorem pure {a : γ} {b : δ} (h : R a b) :
  Agree R (Pure.pure a : ExceptT ε m γ) (Pure.pure b : ExceptT ε n δ)
  := Returns.pure (.ok h)

theorem throw (e : ε) :
  Agree R (MonadExcept.throw e : ExceptT ε m γ) (MonadExcept.throw e : ExceptT ε n δ)
  := Returns.pure (.error e)

theorem except {x : Except ε γ} {y : Except ε δ} (h : ExceptRel R x y) :
  Agree R (liftM x : ExceptT ε m γ) (liftM y : ExceptT ε n δ)
  := ⟨x, y, rfl, rfl, h⟩

end Agree

variable [LawfulMonad m] [LawfulMonad n]

/-- Related results go on to related results. -/
theorem Returns.bind {x : m γ} {y : n δ} {f : γ → m γ'} {g : δ → n δ'} (h : Returns R x y)
    (hf : ∀ a b, R a b → Returns S (f a) (g b)) :
  Returns S (x >>= f) (y >>= g)
  := by
  obtain ⟨a, b, rfl, rfl, hab⟩ := h
  rw [pure_bind, pure_bind]
  apply hf a b hab

namespace Agree

/-- Computations that agree go on to computations that agree, or stop at the same obstacle. -/
theorem bind {x : ExceptT ε m γ} {y : ExceptT ε n δ} {f : γ → ExceptT ε m γ'}
    {g : δ → ExceptT ε n δ'} (h : Agree R x y) (hf : ∀ a b, R a b → Agree S (f a) (g b)) :
  Agree S (x >>= f) (y >>= g)
  := by
  apply Returns.bind h
  intro a b hab
  cases hab with
  | ok hab => exact hf _ _ hab
  | error e => exact Returns.pure (.error e)

/-- Computations that return agree where obstacles may be met. -/
theorem lift {x : m γ} {y : n δ} (h : Returns R x y) :
  Agree R (liftM x : ExceptT ε m γ) (liftM y : ExceptT ε n δ)
  := by
  obtain ⟨a, b, rfl, rfl, hab⟩ := h
  refine ⟨.ok a, .ok b, ?_, ?_, .ok hab⟩
  · exact map_pure Except.ok a
  · exact map_pure Except.ok b

end Agree

end Returns

/-! ### Related registers -/

/-- What is shown has the same form, with related elements. -/
inductive View.Rel {α β : Type} (R : α → β → Prop) : View α → View β → Prop where
  | element {a : α} {b : β} (h : R a b) : Rel R (.element a) (.element b)
  | elements {as : List α} {bs : List β} (h : List.Forall₂ R as bs) :
    Rel R (.elements as) (.elements bs)
  | root {a : α} {b : β} (h : R a b) (isSquare : Bool) : Rel R (.root a isSquare) (.root b isSquare)
  | flag (choice : Bool) : Rel R (.flag choice) (.flag choice)

/-- What is shown, with a function applied to the elements. -/
def View.map {α β : Type} (f : α → β) : View α → View β
  | .element a => .element (f a)
  | .elements as => .elements (as.map f)
  | .root a isSquare => .root (f a) isSquare
  | .flag choice => .flag choice

section Functional

variable {α β : Type} {R : α → β → Prop} {f : α → β} (hf : ∀ a b, R a b → f a = b)

include hf

/-- A relation that is contained in a function relates a list to its image alone. -/
theorem map_eq_of_forall₂ {as : List α} {bs : List β} (h : List.Forall₂ R as bs) :
  as.map f = bs
  := by
  induction h with
  | nil => rfl
  | cons hab _ ih => rw [List.map_cons, hf _ _ hab, ih]

/-- What is shown is determined by what it is related to, if the relation is contained in a
function. -/
theorem View.Rel.map_eq {v : View α} {w : View β} (h : View.Rel R v w) :
  v.map f = w
  := by
  cases h with
  | element h => rw [View.map, hf _ _ h]
  | elements h => rw [View.map, map_eq_of_forall₂ hf h]
  | root h isSquare => rw [View.map, hf _ _ h]
  | flag choice => rfl

/-- A value or an obstacle is determined by what it is related to, if the relation is contained in a
function. -/
theorem ExceptRel.map_eq {ε : Type} {x : Except ε α} {y : Except ε β} (h : ExceptRel R x y) :
  x.map f = y
  := by
  cases h with
  | ok h => exact congrArg Except.ok (hf _ _ h)
  | error e => rfl

end Functional

namespace Instruction

section Registers

variable {α β : Type} {R : α → β → Prop} {regs : List α} {regs' : List β}

/-- The outcomes show related elements and leave related registers. -/
def OutcomeRel (R : α → β → Prop) (p : View α × List α) (q : View β × List β) : Prop :=
  View.Rel R p.1 q.1 ∧ List.Forall₂ R p.2 q.2

variable (h : List.Forall₂ R regs regs')

include h

/-- A register is read as related contents, or exists in neither list. -/
theorem read_rel (i : Nat) :
  ExceptRel R (read regs i) (read regs' i)
  := by
  rw [read, read]
  induction h generalizing i with
  | nil => exact .error _
  | cons hab hrest ih =>
    cases i with
    | zero => exact .ok hab
    | succ i => exact ih i

/-- A range is read as related lists, or does not exist on either side. -/
theorem readRange_rel (i j : Nat) :
  ExceptRel (List.Forall₂ R) (readRange regs i j) (readRange regs' i j)
  := by
  rw [readRange, readRange, h.length_eq]
  split
  · exact .ok (List.forall₂_take _ (List.forall₂_drop _ h))
  · exact .error _

/-- Related registers stay related when related elements are stored. -/
theorem set_rel (i : Nat) {a : α} {b : β} (hab : R a b) :
  List.Forall₂ R (regs.set i a) (regs'.set i b)
  := by
  induction h generalizing i with
  | nil => exact .nil
  | cons hcd hrest ih =>
    cases i with
    | zero => exact .cons hab hrest
    | succ i => exact .cons hcd (ih i)

/-- Related registers stay related when related lists are stored. -/
theorem replaceRange_rel (i : Nat) {as : List α} {bs : List β} (hab : List.Forall₂ R as bs) :
  List.Forall₂ R (replaceRange regs i as) (replaceRange regs' i bs)
  := by
  rw [replaceRange, replaceRange, hab.length_eq]
  exact List.rel_append (List.rel_append (List.forall₂_take _ h) hab) (List.forall₂_drop _ h)

/-- Appending related elements shows and leaves related ones. -/
theorem append_rel {a : α} {b : β} (hab : R a b) :
  OutcomeRel R (append regs a) (append regs' b)
  := ⟨.element hab, List.rel_append h (.cons hab .nil)⟩

/-- Replacing a register by related elements shows and leaves related ones. -/
theorem replace_rel (i : Nat) {a : α} {b : β} (hab : R a b) :
  OutcomeRel R (replace regs i a) (replace regs' i b)
  := ⟨.element hab, set_rel h i hab⟩

end Registers

end Instruction

/-! ### Simulations -/

section Simulation

variable {m n : Type → Type} [Monad m] [Monad n] [LawfulMonad m] [LawfulMonad n] {α β : Type}

/-- All functions of two arithmetics return related results for related elements.  A power has at
least one squaring. -/
structure Simulation (R : α → β → Prop) (M : Arithmetic m α) (N : Arithmetic n β) : Prop where
  constant (c : Constant) : Returns R (M.constant c) (N.constant c)
  ofBytes? (bytes : Bytes) : Returns (Option.Rel R) (M.ofBytes? bytes) (N.ofBytes? bytes)
  ofWideBytes (bytes : Vector UInt8 64) : Returns R (M.ofWideBytes bytes) (N.ofWideBytes bytes)
  ofUniformBytes (bytes : Vector UInt8 48) :
    Returns R (M.ofUniformBytes bytes) (N.ofUniformBytes bytes)
  unary (op : UnaryOperation) {a : α} {b : β} (h : R a b) : Returns R (M.unary op a) (N.unary op b)
  binary (op : BinaryOperation) {a₁ a₂ : α} {b₁ b₂ : β} (h₁ : R a₁ b₁) (h₂ : R a₂ b₂) :
    Returns R (M.binary op a₁ a₂) (N.binary op b₁ b₂)
  pow2k {a : α} {b : β} (h : R a b) {k : Nat} (hk : 1 ≤ k) : Returns R (M.pow2k a k) (N.pow2k b k)
  select {a₁ a₂ : α} {b₁ b₂ : β} (h₁ : R a₁ b₁) (h₂ : R a₂ b₂) (choice : Bool) :
    Returns R (M.select a₁ a₂ choice) (N.select b₁ b₂ choice)
  negateIf {a : α} {b : β} (h : R a b) (choice : Bool) :
    Returns R (M.negateIf a choice) (N.negateIf b choice)
  swapIf {a₁ a₂ : α} {b₁ b₂ : β} (h₁ : R a₁ b₁) (h₂ : R a₂ b₂) (choice : Bool) :
    Returns (fun p q => R p.1 q.1 ∧ R p.2 q.2) (M.swapIf a₁ a₂ choice) (N.swapIf b₁ b₂ choice)
  sum {as : List α} {bs : List β} (h : List.Forall₂ R as bs) : Returns R (M.sum as) (N.sum bs)
  product {as : List α} {bs : List β} (h : List.Forall₂ R as bs) :
    Returns R (M.product as) (N.product bs)
  sqrtRatio {a₁ a₂ : α} {b₁ b₂ : β} (h₁ : R a₁ b₁) (h₂ : R a₂ b₂) :
    Returns (fun p q => R p.1 q.1 ∧ p.2 = q.2) (M.sqrtRatio a₁ a₂) (N.sqrtRatio b₁ b₂)
  inverseSqrt {a : α} {b : β} (h : R a b) :
    Returns (fun p q => R p.1 q.1 ∧ p.2 = q.2) (M.inverseSqrt a) (N.inverseSqrt b)
  toMontgomery {a : α} {b : β} (h : R a b) :
    Returns (fun p q => R p.1 q.1 ∧ R p.2 q.2) (M.toMontgomery a) (N.toMontgomery b)
  toAffine {a₁ a₂ : α} {b₁ b₂ : β} (h₁ : R a₁ b₁) (h₂ : R a₂ b₂) :
    Returns (fun p q => R p.1 q.1 ∧ R p.2 q.2) (M.toAffine a₁ a₂) (N.toAffine b₁ b₂)
  equal {a₁ a₂ : α} {b₁ b₂ : β} (h₁ : R a₁ b₁) (h₂ : R a₂ b₂) :
    Returns Eq (M.equal a₁ a₂) (N.equal b₁ b₂)
  isZero {a : α} {b : β} (h : R a b) : Returns Eq (M.isZero a) (N.isZero b)
  isNegative {a : α} {b : β} (h : R a b) : Returns Eq (M.isNegative a) (N.isNegative b)
  batchInverse {as : List α} {bs : List β} (h : List.Forall₂ R as bs) :
    Returns (ExceptRel (List.Forall₂ R)) (M.batchInverse as) (N.batchInverse bs)

namespace Instruction

/-- A power has at least one squaring. -/
def Proper : Instruction → Prop
  | pow2k _ k => 1 ≤ k
  | _ => True

variable {R : α → β → Prop} {regs : List α} {regs' : List β}

section Outcomes

variable (h : List.Forall₂ R regs regs')

include h

/-- An instruction that appends a related result agrees. -/
theorem append_agree {x : m α} {y : n β} (hxy : Returns R x y) :
  Agree (OutcomeRel R) (do return append regs (← (liftM x : ExceptT Obstacle m α)))
    (do return append regs' (← (liftM y : ExceptT Obstacle n β)))
  := (Agree.lift hxy).bind fun _ _ hab => .pure (append_rel h hab)

/-- An instruction that replaces a register by a related result agrees. -/
theorem replace_agree (i : Nat) {x : m α} {y : n β} (hxy : Returns R x y) :
  Agree (OutcomeRel R) (do return replace regs i (← (liftM x : ExceptT Obstacle m α)))
    (do return replace regs' i (← (liftM y : ExceptT Obstacle n β)))
  := (Agree.lift hxy).bind fun _ _ hab => .pure (replace_rel h i hab)

/-- An instruction that observes the same truth value agrees, and leaves the registers. -/
theorem flag_agree {x : m Bool} {y : n Bool} (hxy : Returns Eq x y) :
  Agree (OutcomeRel R) (do return (View.flag (← (liftM x : ExceptT Obstacle m Bool)), regs))
    (do return (View.flag (← (liftM y : ExceptT Obstacle n Bool)), regs'))
  := (Agree.lift hxy).bind fun a _ hab => .pure (hab ▸ ⟨.flag a, h⟩)

end Outcomes

variable {M : Arithmetic m α} {N : Arithmetic n β} (S : Simulation R M N)

include S

/-- An instruction keeps a simulation. -/
theorem step_agree (h : List.Forall₂ R regs regs') {instruction : Instruction}
    (hproper : instruction.Proper) :
  Agree (OutcomeRel R) (step regs M instruction) (step regs' N instruction)
  := by
  have hread (i : Nat) := Agree.except (m := m) (n := n) (read_rel h i)
  have hrange (i j : Nat) := Agree.except (m := m) (n := n) (readRange_rel h i j)
  cases instruction with
  | constant c => exact append_agree h (S.constant c)
  | load bytes =>
    apply (Agree.lift (S.ofBytes? bytes)).bind
    intro a b hab
    cases hab with
    | some hab => exact .pure (append_rel h hab)
    | none => exact .throw _
  | loadWide bytes => exact append_agree h (S.ofWideBytes bytes)
  | loadUniform bytes => exact append_agree h (S.ofUniformBytes bytes)
  | unary op i => exact (hread i).bind fun _ _ hi => append_agree h (S.unary op hi)
  | binary op i j =>
    exact (hread i).bind fun _ _ hi => (hread j).bind fun _ _ hj =>
      append_agree h (S.binary op hi hj)
  | pow2k i k => exact (hread i).bind fun _ _ hi => append_agree h (S.pow2k hi hproper)
  | select i j choice =>
    exact (hread i).bind fun _ _ hi => (hread j).bind fun _ _ hj =>
      append_agree h (S.select hi hj choice)
  | sum i j => exact (hrange i j).bind fun _ _ hij => append_agree h (S.sum hij)
  | product i j => exact (hrange i j).bind fun _ _ hij => append_agree h (S.product hij)
  | sqrtRatio i j =>
    refine (hread i).bind fun _ _ hi => (hread j).bind fun _ _ hj => ?_
    refine (Agree.lift (S.sqrtRatio hi hj)).bind fun p q hpq => ?_
    obtain ⟨hroot, hsquare⟩ := hpq
    exact .pure ⟨hsquare ▸ .root hroot p.2, List.rel_append h (.cons hroot .nil)⟩
  | inverseSqrt i =>
    refine (hread i).bind fun _ _ hi => ?_
    refine (Agree.lift (S.inverseSqrt hi)).bind fun p q hpq => ?_
    obtain ⟨hroot, hsquare⟩ := hpq
    exact .pure ⟨hsquare ▸ .root hroot p.2, List.rel_append h (.cons hroot .nil)⟩
  | toMontgomery i =>
    refine (hread i).bind fun _ _ hi => ?_
    refine (Agree.lift (S.toMontgomery hi)).bind fun p q hpq => ?_
    have hpair : List.Forall₂ R [p.1, p.2] [q.1, q.2] := .cons hpq.1 (.cons hpq.2 .nil)
    exact .pure ⟨.elements hpair, List.rel_append h hpair⟩
  | toAffine i j =>
    refine (hread i).bind fun _ _ hi => (hread j).bind fun _ _ hj => ?_
    refine (Agree.lift (S.toAffine hi hj)).bind fun p q hpq => ?_
    have hpair : List.Forall₂ R [p.1, p.2] [q.1, q.2] := .cons hpq.1 (.cons hpq.2 .nil)
    exact .pure ⟨.elements hpair, List.rel_append h hpair⟩
  | equal i j =>
    exact (hread i).bind fun _ _ hi => (hread j).bind fun _ _ hj => flag_agree h (S.equal hi hj)
  | isZero i => exact (hread i).bind fun _ _ hi => flag_agree h (S.isZero hi)
  | isNegative i => exact (hread i).bind fun _ _ hi => flag_agree h (S.isNegative hi)
  | update op i j =>
    exact (hread i).bind fun _ _ hi => (hread j).bind fun _ _ hj =>
      replace_agree h i (S.binary op hi hj)
  | assign i j choice =>
    exact (hread i).bind fun _ _ hi => (hread j).bind fun _ _ hj =>
      replace_agree h i (S.select hi hj choice)
  | negate i choice => exact (hread i).bind fun _ _ hi => replace_agree h i (S.negateIf hi choice)
  | clear i => exact (hread i).bind fun _ _ _ => replace_agree h i (S.constant .zero)
  | swap i j choice =>
    refine (hread i).bind fun _ _ hi => (hread j).bind fun _ _ hj => ?_
    refine (Agree.lift (S.swapIf hi hj choice)).bind fun p q hpq => ?_
    exact .pure ⟨.elements (.cons hpq.1 (.cons hpq.2 .nil)), set_rel (set_rel h i hpq.1) j hpq.2⟩
  | batchInverse i j =>
    refine (hrange i j).bind fun _ _ hij => ?_
    refine (Agree.lift (S.batchInverse hij)).bind fun x y hxy => ?_
    cases hxy with
    | ok hinverses => exact .pure ⟨.elements hinverses, replaceRange_rel h i hinverses⟩
    | error broken => exact .throw _

/-- A program keeps a simulation. -/
theorem runWith_returns (h : List.Forall₂ R regs regs') {program : List Instruction}
    (hproper : ∀ instruction ∈ program, instruction.Proper) :
  Returns (fun p q => List.Forall₂ (ExceptRel (View.Rel R)) p.1 q.1 ∧ List.Forall₂ R p.2 q.2)
    (runWith M regs program) (runWith N regs' program)
  := by
  induction program generalizing regs regs' with
  | nil => exact .pure ⟨.nil, h⟩
  | cons instruction rest ih =>
    rw [List.forall_mem_cons] at hproper
    apply Returns.bind (step_agree S h hproper.1)
    intro x y hxy
    -- either way, what is shown is related, and so are the registers that the rest starts with
    have hsettle : ExceptRel (View.Rel R) (settle regs x).1 (settle regs' y).1
        ∧ List.Forall₂ R (settle regs x).2 (settle regs' y).2 := by
      cases hxy with
      | ok hxy => exact ⟨.ok hxy.1, hxy.2⟩
      | error obstacle => exact ⟨.error obstacle, h⟩
    apply Returns.bind (ih hsettle.2 hproper.2)
    intro p q hpq
    exact .pure ⟨.cons hsettle.1 hpq.1, hpq.2⟩

end Instruction

end Simulation

end HashToCurve

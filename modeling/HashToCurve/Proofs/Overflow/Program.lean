import HashToCurve.Proofs.Overflow.Bounds
import HashToCurve.Proofs.Overflow.Functions

/-!
# Programs without overflow

The arithmetic of limbs is simulated by a checked one, whose elements carry a mark that tells whether
the operation that computed them is the doubled square.  So no program overflows, and the mark of a
register bounds its limbs.
-/

namespace HashToCurve

open FieldElement

/-! ### Marked elements -/

/-- An element, and whether the operation that computed it doubled the limbs of a square. -/
structure Marked where
  /-- The element. -/
  value : FieldElement
  /-- Whether its limbs are those of a square, doubled. -/
  doubled : Bool

namespace Marked

/-- An element that an operation with a carry computed. -/
def carried (a : FieldElement) : Marked := ⟨a, false⟩

/-- The bound on the limbs of an element with a mark. -/
def bound (doubled : Bool) : Nat := if doubled then 2 ^ 52 + 2 ^ 16 else 2 ^ 51 + 2 ^ 15

/-- The element has the limbs of the marked one, and the mark bounds them. -/
def Tracks (m : Marked) (a : FieldElement) : Prop :=
  m.value.LimbsBelow (bound m.doubled) ∧ m.value = a

variable {m m₁ m₂ : Marked} {a a₁ a₂ : FieldElement}

/-- An element after a carry is within the lower of the two bounds. -/
theorem tracks_carried (ha : a.Carried) :
  Tracks (carried a) a
  := ⟨ha, rfl⟩

/-- Both bounds are below `2^54`. -/
theorem Tracks.bounded (h : Tracks m a) :
  a.Bounded
  := by
  obtain ⟨hlimbs, rfl⟩ := h
  apply hlimbs.mono
  rw [bound]
  split
  · norm_num
  · norm_num

/-- An element that is computed without a failing check. -/
theorem returns_carried {x : Option FieldElement} (hx : x = some a) (ha : a.Carried) :
  Returns Tracks (x.map carried) (pure a : Id FieldElement)
  := ⟨carried a, a, by rw [hx]; rfl, rfl, tracks_carried ha⟩

/-- The elements of a list of related ones are bounded, and are the values. -/
theorem bounded_of_tracks {ms : List Marked} {as : List FieldElement}
    (h : List.Forall₂ Tracks ms as) :
  (∀ a ∈ as, a.Bounded) ∧ ms.map value = as
  := by
  obtain ⟨hlimbs, hvalues⟩ := (List.forall₂_and_left ms as).mp h
  obtain rfl := map_eq_of_forall₂ (fun _ _ h => h) hvalues
  refine ⟨?_, rfl⟩
  intro a ha
  obtain ⟨m, hm, rfl⟩ := List.mem_map.mp ha
  exact Tracks.bounded ⟨hlimbs m hm, rfl⟩

theorem tracks_map_carried {as : List FieldElement} (has : ∀ a ∈ as, a.Carried) :
  List.Forall₂ Tracks (as.map carried) as
  := by
  rw [List.forall₂_map_left_iff, List.forall₂_same]
  exact fun a ha => tracks_carried (has a ha)

/-- A pair that is computed without a failing check. -/
theorem returns_pair {x : Option (FieldElement × FieldElement)} (hx : x = some (a₁, a₂))
    (h₁ : a₁.Carried) (h₂ : a₂.Carried) :
  Returns (fun p q => Tracks p.1 q.1 ∧ Tracks p.2 q.2) (x.map (Prod.map carried carried))
    (pure (a₁, a₂) : Id (FieldElement × FieldElement))
  := ⟨(carried a₁, carried a₂), (a₁, a₂), by rw [hx]; rfl, rfl, tracks_carried h₁, tracks_carried h₂⟩

/-- A root that is computed without a failing check. -/
theorem returns_root {x : Option (FieldElement × Bool)} {root : FieldElement × Bool}
    (hx : x = some root) (hroot : root.1.Carried) :
  Returns (fun p q => Tracks p.1 q.1 ∧ p.2 = q.2) (x.map (Prod.map carried id))
    (pure root : Id (FieldElement × Bool))
  := ⟨(carried root.1, root.2), root, by rw [hx]; rfl, rfl, tracks_carried hroot, rfl⟩

/-! ### The checked arithmetic -/

/-- A function of one element.  The identity keeps the mark, and the doubled square sets it. -/
def unary : UnaryOperation → Marked → Option Marked
  | .identity, m => some m
  | .neg, m => (Checked.neg m.value).map carried
  | .square, m => (Checked.square m.value).map carried
  | .square2, m => (Checked.square2 m.value).map (⟨·, true⟩)
  | .inverse, m => (Checked.inverse m.value).map carried
  | .powP58, m => (Checked.powP58 m.value).map carried

/-- A function of two elements. -/
def binary : BinaryOperation → Marked → Marked → Option Marked
  | .add, m₁, m₂ => (Checked.add m₁.value m₂.value).map carried
  | .sub, m₁, m₂ => (Checked.sub m₁.value m₂.value).map carried
  | .mul, m₁, m₂ => (Checked.mul m₁.value m₂.value).map carried

/-- The opposite of an element is computed also where it is not chosen. -/
def negateIf (m : Marked) (choice : Bool) : Option Marked := do
  let opposite ← Checked.neg m.value
  return if choice then carried opposite else m

/-- A list with a single element is folded without an operation. -/
def fold (f : List FieldElement → Option FieldElement) : List Marked → Option Marked
  | [m] => some m
  | ms => (f (ms.map value)).map carried

/-- The inverses of a list. -/
def batchInverse (ms : List Marked) : Option (Except Fault (List Marked)) :=
  (Checked.batchInverse (ms.map value)).map (Except.map (List.map carried))

/-- A function of one element passes its checks, and its result is within the bound of its mark. -/
theorem unary_tracks (op : UnaryOperation) (h : Tracks m a) :
  Returns Tracks (unary op m) (pure (op.apply a) : Id FieldElement)
  := by
  have ha := h.bounded
  obtain ⟨hlimbs, rfl⟩ := h
  cases op with
  | identity => exact ⟨m, m.value, rfl, rfl, hlimbs, rfl⟩
  | neg => exact returns_carried (Checked.neg_eq ha) (carried_neg ha)
  | square => exact returns_carried (Checked.square_eq ha) (carried_square _)
  | square2 =>
    have hdoubled : m.value.square2.LimbsBelow (bound true) :=
      m.value.limbsBelow_square2.mono (by decide)
    refine ⟨⟨m.value.square2, true⟩, _, ?_, rfl, hdoubled, rfl⟩
    rw [unary, Checked.square2_eq ha]
    rfl
  | inverse => exact returns_carried (Checked.inverse_eq ha) (carried_inverse _)
  | powP58 => exact returns_carried (Checked.powP58_eq ha) (carried_powP58 _)

/-- A sum, a difference or a product passes its checks, and ends with a carry. -/
theorem binary_tracks (op : BinaryOperation) (h₁ : Tracks m₁ a₁) (h₂ : Tracks m₂ a₂) :
  Returns Tracks (binary op m₁ m₂) (pure (op.apply a₁ a₂) : Id FieldElement)
  := by
  have ha₁ := h₁.bounded
  have ha₂ := h₂.bounded
  obtain ⟨-, rfl⟩ := h₁
  obtain ⟨-, rfl⟩ := h₂
  cases op with
  | add =>
    rw [binary, BinaryOperation.apply]
    exact returns_carried (Checked.add_eq ha₁ ha₂) (carried_add ha₁ ha₂)
  | sub =>
    rw [binary, BinaryOperation.apply]
    exact returns_carried (Checked.sub_eq ha₁ ha₂) (carried_sub ha₁ ha₂)
  | mul =>
    rw [binary, BinaryOperation.apply]
    exact returns_carried (Checked.mul_eq ha₁ ha₂) (carried_mul m₁.value m₂.value)

/-- An element that is not negated keeps its mark, and one that is negated is carried. -/
theorem negateIf_tracks (h : Tracks m a) (choice : Bool) :
  Returns Tracks (negateIf m choice) (pure (a.negateIf choice) : Id FieldElement)
  := by
  refine ⟨if choice then carried (-a) else m, _, ?_, rfl, ?_⟩
  · rw [negateIf, h.2, Checked.bind_of_some (Checked.neg_eq h.bounded)]
  · cases choice with
    | false => exact h
    | true => exact tracks_carried (carried_neg h.bounded)

/-- A list is folded without a failing check, and with a carry if it has several elements. -/
theorem fold_tracks {f : List FieldElement → Option FieldElement}
    {g : List FieldElement → FieldElement}
    (hf : ∀ as : List FieldElement, (∀ a ∈ as, a.Bounded) → f as = some (g as))
    (hnil : (g []).Carried) (hsingle : ∀ a, g [a] = a)
    (hcons : ∀ a b rest, (∀ c ∈ a :: b :: rest, c.Bounded) → (g (a :: b :: rest)).Carried)
    {ms : List Marked} {as : List FieldElement} (h : List.Forall₂ Tracks ms as) :
  Returns Tracks (fold f ms) (pure (g as) : Id FieldElement)
  := by
  obtain ⟨has, hvalues⟩ := bounded_of_tracks h
  cases h with
  | nil => exact returns_carried (hf [] has) hnil
  | cons hm hrest =>
    cases hrest with
    | nil => exact ⟨_, _, rfl, rfl, by rwa [hsingle]⟩
    | cons hm' hrest =>
      rw [fold, hvalues]
      · exact returns_carried (hf _ has) (hcons _ _ _ has)
      · simp

/-- A list of marked elements is inverted or refused without a failing check. -/
theorem batchInverse_tracks {ms : List Marked} {as : List FieldElement}
    (h : List.Forall₂ Tracks ms as) :
  Returns (ExceptRel (List.Forall₂ Tracks)) (batchInverse ms)
    (pure (FieldElement.batchInverse as) : Id (Except Fault (List FieldElement)))
  := by
  obtain ⟨has, rfl⟩ := bounded_of_tracks h
  refine ⟨_, _, congrArg (Option.map _) (Checked.batchInverse_eq has), rfl, ?_⟩
  cases hresult : FieldElement.batchInverse (ms.map value) with
  | error broken => exact .error broken
  | ok inverses => exact .ok (tracks_map_carried (carried_batchInverse hresult))

end Marked

/-- The arithmetic of limbs with all checks. -/
def checked : Arithmetic Option Marked where
  constant c := some (.carried c.value)
  ofBytes? bytes := some ((FieldElement.ofBytes? bytes).map .carried)
  ofWideBytes bytes := (Checked.ofWideBytes bytes).map .carried
  ofUniformBytes bytes := (Checked.ofUniformBytes bytes).map .carried
  unary := Marked.unary
  binary := Marked.binary
  pow2k m k := (Checked.pow2k m.value k).map .carried
  select m₁ m₂ choice := some (if choice then m₂ else m₁)
  negateIf := Marked.negateIf
  swapIf m₁ m₂ choice := some (if choice then (m₂, m₁) else (m₁, m₂))
  sum := Marked.fold Checked.sum
  product := Marked.fold Checked.product
  sqrtRatio m₁ m₂ := (Checked.sqrtRatio m₁.value m₂.value).map (Prod.map .carried id)
  inverseSqrt m := (Checked.inverseSqrt m.value).map (Prod.map .carried id)
  toMontgomery m := (Checked.toMontgomery m.value).map (Prod.map .carried .carried)
  toAffine m₁ m₂ :=
    (Checked.toAffine ⟨m₁.value, m₂.value⟩).map fun P => (.carried P.x, .carried P.y)
  equal m₁ m₂ := Checked.equal m₁.value m₂.value
  isZero m := Checked.isZero m.value
  isNegative m := Checked.isNegative m.value
  batchInverse := Marked.batchInverse

/-- The checks of the arithmetic of limbs never fail, and the marks bound the limbs. -/
theorem simulation_checked :
  Simulation Marked.Tracks checked limbs
  where
  constant c := ⟨_, _, rfl, rfl, Marked.tracks_carried (carried_value c)⟩
  ofBytes? bytes := by
    refine ⟨_, _, rfl, rfl, ?_⟩
    change Option.Rel _ ((FieldElement.ofBytes? bytes).map _) (FieldElement.ofBytes? bytes)
    rw [FieldElement.ofBytes?]
    split
    · exact .some (Marked.tracks_carried (carried_ofBytes _))
    · exact .none
  ofWideBytes bytes :=
    Marked.returns_carried (Checked.ofWideBytes_eq bytes) (carried_ofWideBytes bytes)
  ofUniformBytes bytes :=
    Marked.returns_carried (Checked.ofUniformBytes_eq bytes) (carried_ofUniformBytes bytes)
  unary op _ _ h := Marked.unary_tracks op h
  binary op _ _ _ _ h₁ h₂ := Marked.binary_tracks op h₁ h₂
  pow2k h k hk := by
    have ha := h.bounded
    obtain ⟨-, rfl⟩ := h
    exact Marked.returns_carried (Checked.pow2k_eq ha hk) (carried_pow2k _ hk)
  select h₁ h₂ choice := by
    refine ⟨_, _, rfl, rfl, ?_⟩
    cases choice with
    | false => exact h₁
    | true => exact h₂
  negateIf h choice := Marked.negateIf_tracks h choice
  swapIf h₁ h₂ choice := by
    refine ⟨_, _, rfl, rfl, ?_⟩
    cases choice with
    | false => exact ⟨h₁, h₂⟩
    | true => exact ⟨h₂, h₁⟩
  sum h := by
    apply Marked.fold_tracks (fun _ => Checked.sum_eq) (carried_value .zero) (fun _ => rfl) _ h
    intro a b rest has
    rw [List.forall_mem_cons, List.forall_mem_cons] at has
    change (rest.foldl (· + ·) (a + b)).Carried
    exact carried_foldl (fun _ _ => carried_add) has.2.2 (carried_add has.1 has.2.1)
  product h := by
    apply Marked.fold_tracks (fun _ => Checked.product_eq) (carried_value .one) (fun _ => rfl) _ h
    intro a b rest has
    rw [List.forall_mem_cons, List.forall_mem_cons] at has
    change (rest.foldl (· * ·) (a * b)).Carried
    exact carried_foldl (fun a b _ _ => carried_mul a b) has.2.2 (carried_mul a b)
  sqrtRatio h₁ h₂ := by
    have hroot := Checked.sqrtRatio_eq h₁.bounded h₂.bounded
    obtain ⟨-, rfl⟩ := h₁
    obtain ⟨-, rfl⟩ := h₂
    exact Marked.returns_root hroot (carried_sqrtRatio _ _)
  inverseSqrt h := by
    have hroot := Checked.inverseSqrt_eq h.bounded
    obtain ⟨-, rfl⟩ := h
    exact Marked.returns_root hroot (carried_sqrtRatio _ _)
  toMontgomery h := by
    have hpoint := Checked.toMontgomery_eq h.bounded
    obtain ⟨-, rfl⟩ := h
    exact Marked.returns_pair hpoint (carried_toMontgomery _).1 (carried_toMontgomery _).2
  toAffine h₁ h₂ := by
    have hpoint := Checked.toAffine_eq (P := ⟨_, _⟩) h₁.bounded h₂.bounded
    obtain ⟨-, rfl⟩ := h₁
    obtain ⟨-, rfl⟩ := h₂
    obtain ⟨hx, hy⟩ := carried_toAffine ⟨_, _⟩
    refine ⟨_, _, congrArg (Option.map _) hpoint, rfl, ?_⟩
    exact ⟨Marked.tracks_carried hx, Marked.tracks_carried hy⟩
  equal h₁ h₂ := by
    obtain ⟨-, rfl⟩ := h₁
    obtain ⟨-, rfl⟩ := h₂
    exact ⟨_, _, Checked.equal_eq _ _, rfl, rfl⟩
  isZero h := by
    obtain ⟨-, rfl⟩ := h
    exact ⟨_, _, Checked.isZero_eq _, rfl, rfl⟩
  isNegative h := by
    obtain ⟨-, rfl⟩ := h
    exact ⟨_, _, Checked.isNegative_eq _, rfl, rfl⟩
  batchInverse h := Marked.batchInverse_tracks h

/-! ### Programs -/

namespace Instruction

/-- No program, from no registers on, fails a check: it runs in the checked arithmetic as it does in
that of limbs.  The limbs of each register are as small as a carry leaves them, or as a doubled
square has them if this computed the register.  Whatever its limbs are, an element is written
without failing a check. -/
theorem run_without_overflow (program : List Instruction)
    (hproper : ∀ instruction ∈ program, instruction.Proper) :
  ∃ views registers, runWith checked [] program = some (views, registers)
    ∧ registers.map Marked.value = (runWith limbs [] program).run.2
    ∧ views.map (Except.map (View.map Marked.value)) = (runWith limbs [] program).run.1
    ∧ (∀ m ∈ registers,
      m.value.LimbsBelow (if m.doubled then 2 ^ 52 + 2 ^ 16 else 2 ^ 51 + 2 ^ 15))
    ∧ ∀ a : FieldElement, Checked.toBytes a = some a.toBytes
  := by
  obtain ⟨⟨views, registers⟩, q, hchecked, hlimbs, hviews, hregs⟩ :=
    runWith_returns simulation_checked .nil hproper
  have hvalue : ∀ m a, Marked.Tracks m a → m.value = a := fun _ _ h => h.2
  refine ⟨views, registers, hchecked, ?_, ?_, ?_, Checked.toBytes_eq⟩
  · rw [hlimbs]
    exact map_eq_of_forall₂ hvalue hregs
  · rw [hlimbs]
    apply map_eq_of_forall₂ _ hviews
    intro x y hxy
    apply hxy.map_eq
    intro v w hvw
    apply hvw.map_eq hvalue
  · exact ((List.forall₂_and_left _ _).mp hregs).1

/-- Doubled squares of doubled squares, as factors, as minuend and under more squarings. -/
theorem run_without_overflow_square2 :
  (∀ instruction ∈ [constant .minusOne, unary .square2 0, unary .square2 1, binary .mul 1 2,
    binary .sub 2 3, pow2k 2 3], instruction.Proper)
  ∧ ∃ views registers, runWith checked [] [constant .minusOne, unary .square2 0, unary .square2 1,
      binary .mul 1 2, binary .sub 2 3, pow2k 2 3] = some (views, registers)
    ∧ ∀ m ∈ registers,
      m.value.LimbsBelow (if m.doubled then 2 ^ 52 + 2 ^ 16 else 2 ^ 51 + 2 ^ 15)
  := by
  have hproper : ∀ instruction ∈ [constant .minusOne, unary .square2 0, unary .square2 1,
      binary .mul 1 2, binary .sub 2 3, pow2k 2 3], instruction.Proper := by
    simp [Proper]
  obtain ⟨views, registers, hchecked, -, -, hbound, -⟩ := run_without_overflow _ hproper
  exact ⟨hproper, views, registers, hchecked, hbound⟩

/-- The marks of the registers. -/
example :
  (runWith checked [] [constant .minusOne, unary .square2 0, unary .square2 1, binary .mul 1 2,
    select 3 2 true, sum 1 1, sum 1 2]).map (fun outcome => outcome.2.map Marked.doubled)
    = some [false, true, true, false, true, true, false]
  := by decide

end Instruction

end HashToCurve

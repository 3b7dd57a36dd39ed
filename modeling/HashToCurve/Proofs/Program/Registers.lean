import HashToCurve.Proofs.Program.Residues

/-!
# Registers written in place

A program loses no register, and keeps the content of every register that none of its instructions
writes in place.  A register that an instruction writes in place holds limbs that denote what the
instruction computes with the residues of the registers it reads.
-/

namespace HashToCurve.Instruction

open FieldElement Residue

/-- The registers that an instruction writes in place. -/
def inPlace : Instruction → List Nat
  | update _ i _ => [i]
  | assign i _ _ => [i]
  | negate i _ => [i]
  | clear i => [i]
  | swap i j _ => [i, j]
  | batchInverse i j => List.range' i (j + 1 - i)
  | _ => []

/-! ### Registers that keep their content -/

/-- No register is lost, and those that are not among the written ones keep their content. -/
structure Frame {α : Type} (written : List Nat) (regs after : List α) : Prop where
  length_le : regs.length ≤ after.length
  kept {k : Nat} (hk : k < regs.length) (hwritten : k ∉ written) : after[k]? = regs[k]?

section Frame

variable {α : Type} {regs after : List α}

namespace Frame

/-- Registers that are left as they are keep their content, whatever may be written. -/
theorem refl (written : List Nat) (regs : List α) :
  Frame written regs regs
  := ⟨le_rfl, fun _ _ => rfl⟩

/-- Two steps together write what each of them writes. -/
theorem trans {written written' : List Nat} {between : List α}
    (h : Frame written regs between) (h' : Frame written' between after) :
  Frame (written ++ written') regs after
  := by
  refine ⟨h.length_le.trans h'.length_le, fun hk hwritten => ?_⟩
  rw [List.mem_append, not_or] at hwritten
  rw [h'.kept (hk.trans_le h.length_le) hwritten.2, h.kept hk hwritten.1]

/-- Appending registers writes none in place. -/
theorem append (written : List Nat) (regs as : List α) :
  Frame written regs (regs ++ as)
  := ⟨List.length_append ▸ Nat.le_add_right _ _, fun hk _ => List.getElem?_append_left hk⟩

/-- Replacing a register writes that register. -/
theorem replace {i : Nat} (hi : i < regs.length) (a : α) :
  Frame [i] regs (Instruction.replace regs i a).2
  := by
  refine ⟨List.length_set.ge, fun hk hwritten => ?_⟩
  rw [getElem?_replace regs hi, if_neg (List.mem_singleton.not.mp hwritten)]

/-- Exchanging two registers writes both. -/
theorem exchange {i j : Nat} (hi : i < regs.length) (hj : j < regs.length) (a b : α) :
  Frame [i, j] regs ((regs.set i a).set j b)
  := by
  refine ⟨(List.length_set.trans List.length_set).ge, fun {k} hk hwritten => ?_⟩
  obtain ⟨hki, hkj⟩ : k ≠ i ∧ k ≠ j := by simpa using hwritten
  rw [getElem?_exchange regs hi hj, if_neg hkj, if_neg hki]

/-- Replacing as many registers as a range has, or fewer, writes the range. -/
theorem replaceRange {i n : Nat} {as : List α} (h : as.length ≤ regs.length - i)
    (hn : as.length ≤ n) :
  Frame (List.range' i n) regs (Instruction.replaceRange regs i as)
  := by
  constructor
  · rw [Instruction.replaceRange, List.length_append, List.length_append, List.length_take,
      List.length_drop]
    omega
  · intro k hk hwritten
    rw [List.mem_range'_1] at hwritten
    rw [getElem?_replaceRange regs h, if_neg (by omega)]

end Frame

/-- A register that is read exists. -/
theorem lt_length_of_read {i : Nat} {a : α} (h : read regs i = .ok a) :
  i < regs.length
  := by
  rw [read] at h
  by_contra hi
  rw [List.getElem?_eq_none (Nat.le_of_not_lt hi)] at h
  cases h

/-- A range that is read has no more elements than it spans, and no more than there are registers
from its start on. -/
theorem length_le_of_readRange {i j : Nat} {as : List α} (h : readRange regs i j = .ok as) :
  as.length ≤ j + 1 - i ∧ as.length ≤ regs.length - i
  := by
  rw [readRange] at h
  split at h
  · cases h
    rw [List.length_take, List.length_drop]
    exact ⟨min_le_left _ _, min_le_right _ _⟩
  · cases h

/-- A computation whose first part succeeds goes on with the rest. -/
theorem run_bind_of_ok {γ δ : Type} {x : ExceptT Obstacle Id γ} {f : γ → ExceptT Obstacle Id δ}
    {a : γ} (h : x.run = .ok a) :
  (x >>= f).run = (f a).run
  := by
  rw [ExceptT.run_bind, h]
  rfl

/-- A computation that succeeds has succeeded in its first part and in the rest. -/
theorem exists_of_bind {γ δ : Type} {x : ExceptT Obstacle Id γ} {f : γ → ExceptT Obstacle Id δ}
    {b : δ} (h : (x >>= f).run = .ok b) :
  ∃ a, x.run = .ok a ∧ (f a).run = .ok b
  := by
  cases hx : x.run with
  | ok a => exact ⟨a, rfl, (run_bind_of_ok hx).symm.trans h⟩
  | error obstacle =>
    rw [ExceptT.run_bind, hx] at h
    cases h

variable {M : Arithmetic Id α}
  (hM : ∀ {as inverses : List α}, M.batchInverse as = .ok inverses → inverses.length = as.length)

include hM

/-- An instruction that is carried out keeps the registers that it does not write in place. -/
theorem step_frame {instruction : Instruction} {p : View α × List α}
    (h : (step regs M instruction).run = .ok p) :
  Frame instruction.inPlace regs p.2
  := by
  cases instruction with
  | constant c | loadWide bytes | loadUniform bytes =>
    cases h
    exact .append _ _ _
  | load bytes =>
    obtain ⟨a?, -, h⟩ := exists_of_bind h
    cases a? with
    | none => cases h
    | some a =>
      cases h
      exact .append _ _ _
  | unary op i | pow2k i k | inverseSqrt i | toMontgomery i | sum i j | product i j =>
    obtain ⟨a, -, h⟩ := exists_of_bind h
    cases h
    exact .append _ _ _
  | binary op i j | select i j choice | sqrtRatio i j | toAffine i j =>
    obtain ⟨a, -, h⟩ := exists_of_bind h
    obtain ⟨b, -, h⟩ := exists_of_bind h
    cases h
    exact .append _ _ _
  | isZero i | isNegative i =>
    obtain ⟨a, -, h⟩ := exists_of_bind h
    cases h
    exact .refl _ _
  | equal i j =>
    obtain ⟨a, -, h⟩ := exists_of_bind h
    obtain ⟨b, -, h⟩ := exists_of_bind h
    cases h
    exact .refl _ _
  | update op i j | assign i j choice =>
    obtain ⟨a, ha, h⟩ := exists_of_bind h
    obtain ⟨b, -, h⟩ := exists_of_bind h
    cases h
    exact .replace (lt_length_of_read ha) _
  | negate i choice | clear i =>
    obtain ⟨a, ha, h⟩ := exists_of_bind h
    cases h
    exact .replace (lt_length_of_read ha) _
  | swap i j choice =>
    obtain ⟨a, ha, h⟩ := exists_of_bind h
    obtain ⟨b, hb, h⟩ := exists_of_bind h
    cases h
    exact .exchange (lt_length_of_read ha) (lt_length_of_read hb) _ _
  | batchInverse i j =>
    obtain ⟨as, has, h⟩ := exists_of_bind h
    obtain ⟨hspan, hlength⟩ := length_le_of_readRange has
    obtain ⟨x, hx, h⟩ := exists_of_bind h
    cases x with
    | ok inverses =>
      cases h
      have hinverses := hM (Except.ok.inj hx)
      exact .replaceRange (hinverses ▸ hlength) (hinverses ▸ hspan)
    | error broken => cases h

/-- A program keeps the registers that none of its instructions writes in place. -/
theorem runWith_frame (regs : List α) (program : List Instruction) :
  Frame (program.flatMap inPlace) regs (runWith M regs program).run.2
  := by
  induction program generalizing regs with
  | nil => exact .refl _ _
  | cons instruction rest ih =>
    have hstep : Frame instruction.inPlace regs (settle regs (step regs M instruction).run).2 := by
      cases h : (step regs M instruction).run with
      | ok p => exact step_frame hM h
      -- an instruction that meets an obstacle leaves all registers
      | error obstacle => exact .refl _ _
    exact hstep.trans (ih _)

end Frame

/-! ### What is written in place -/

/-- The register holds limbs that denote the residue. -/
def Holds (regs : List FieldElement) (i : Nat) (r : Residue) : Prop :=
  ∃ a, regs[i]? = some a ∧ a.Denotes r

section Holds

variable {regs after : List FieldElement} {i j : Nat} {r s : Residue}

/-- A register that holds a residue exists. -/
theorem Holds.lt_length (h : Holds regs i r) :
  i < regs.length
  := by
  obtain ⟨a, ha, -⟩ := h
  exact (List.getElem?_eq_some_iff.mp ha).1

/-- A register holds one residue. -/
theorem Holds.unique (hr : Holds regs i r) (hs : Holds regs i s) :
  r = s
  := by
  obtain ⟨a, ha, -, rfl⟩ := hr
  obtain ⟨b, hb, -, rfl⟩ := hs
  rw [ha] at hb
  rw [Option.some.inj hb]

/-- A register that holds a residue can be read. -/
theorem Holds.read (h : Holds regs i r) :
  ∃ a, Instruction.read regs i = .ok a ∧ a.Denotes r
  := by
  obtain ⟨a, ha, hdenotes⟩ := h
  exact ⟨a, by rw [Instruction.read, ha], hdenotes⟩

/-- A replaced register holds what its new element denotes. -/
theorem holds_replace (hi : i < regs.length) {a : FieldElement} (ha : a.Denotes r) :
  Holds (replace regs i a).2 i r
  := ⟨a, (getElem?_replace regs hi a i).trans (if_pos rfl), ha⟩

/-- An update leaves the sum, the difference or the product of its two registers in the first. -/
theorem step_update (op : BinaryOperation) (hr : Holds regs i r) (hs : Holds regs j s) :
  ∃ p, (step regs limbs (update op i j)).run = .ok p ∧ Holds p.2 i (op.onResidue r s)
  := by
  obtain ⟨a, ha, hra⟩ := hr.read
  obtain ⟨b, hb, hsb⟩ := hs.read
  refine ⟨replace regs i (op.apply a b), ?_, holds_replace hr.lt_length (op.denotes_apply hra hsb)⟩
  rw [step, ha, hb]
  rfl

/-- An assignment leaves the content of the second register in the first if it is to be made. -/
theorem step_assign (hr : Holds regs i r) (hs : Holds regs j s) (choice : Bool) :
  ∃ p, (step regs limbs (assign i j choice)).run = .ok p
    ∧ Holds p.2 i (if choice then s else r)
  := by
  obtain ⟨a, ha, hra⟩ := hr.read
  obtain ⟨b, hb, hsb⟩ := hs.read
  refine ⟨replace regs i (a.select b choice), ?_,
    holds_replace hr.lt_length (hra.select hsb choice)⟩
  rw [step, ha, hb]
  rfl

/-- A negation leaves the opposite in the register if it is to be made. -/
theorem step_negate (hr : Holds regs i r) (choice : Bool) :
  ∃ p, (step regs limbs (negate i choice)).run = .ok p
    ∧ Holds p.2 i (if choice then -r else r)
  := by
  obtain ⟨a, ha, hra⟩ := hr.read
  refine ⟨replace regs i (a.negateIf choice), ?_,
    holds_replace hr.lt_length (hra.select (UnaryOperation.neg.denotes_apply hra) choice)⟩
  rw [step, ha]
  rfl

/-- A cleared register holds zero. -/
theorem step_clear (hr : Holds regs i r) :
  ∃ p, (step regs limbs (clear i)).run = .ok p ∧ Holds p.2 i 0
  := by
  obtain ⟨a, ha, -⟩ := hr.read
  refine ⟨replace regs i 0, ?_, holds_replace hr.lt_length Constant.zero.denotes_value⟩
  rw [step, ha]
  rfl

/-- A swap leaves the content of each register in the other one if it is to be made. -/
theorem step_swap (hr : Holds regs i r) (hs : Holds regs j s) (choice : Bool) :
  ∃ p, (step regs limbs (swap i j choice)).run = .ok p
    ∧ Holds p.2 i (if choice then s else r) ∧ Holds p.2 j (if choice then r else s)
  := by
  obtain ⟨a, ha, hra⟩ := hr.read
  obtain ⟨b, hb, hsb⟩ := hs.read
  have hexchange := getElem?_exchange regs hr.lt_length hs.lt_length (a.select b choice)
    (b.select a choice)
  have hsecond : Holds ((regs.set i (a.select b choice)).set j (b.select a choice)) j
      (if choice then r else s) :=
    ⟨_, (hexchange j).trans (if_pos rfl), hsb.select hra choice⟩
  refine ⟨(.elements [a.select b choice, b.select a choice], _), ?_, ?_, hsecond⟩
  · rw [step, ha, hb]
    rfl
  -- a register that is exchanged with itself holds one residue, whichever element is stored last
  · by_cases hij : i = j
    · subst hij
      obtain rfl := hr.unique hs
      exact hsecond
    · exact ⟨_, (hexchange i).trans (by rw [if_neg hij, if_pos rfl]), hra.select hsb choice⟩

/-- A range of registers that hold residues can be read, and its elements denote them in order. -/
theorem readRange_of_holds {f : Nat → Residue} (hf : ∀ k, i ≤ k → k ≤ j → Holds regs k (f k)) :
  ∃ as, readRange regs i j = .ok as
    ∧ List.Forall₂ FieldElement.Denotes as ((List.range' i (j + 1 - i)).map f)
  := by
  have hj : j < i ∨ j < regs.length := by
    by_cases hij : j < i
    · exact .inl hij
    · exact .inr (hf j (Nat.le_of_not_lt hij) le_rfl).lt_length
  refine ⟨(regs.drop i).take (j + 1 - i), if_pos hj, List.forall₂_iff_get.mpr ⟨?_, ?_⟩⟩
  · rw [List.length_take, List.length_drop, List.length_map, List.length_range']
    omega
  · intro n hn hn'
    rw [List.length_map, List.length_range'] at hn'
    obtain ⟨a, ha, hdenotes⟩ := hf (i + n) (by omega) (by omega)
    obtain ⟨hlength, rfl⟩ := List.getElem?_eq_some_iff.mp ha
    simpa using hdenotes

theorem zero_mem_range_iff {f : Nat → Residue} :
  0 ∈ (List.range' i (j + 1 - i)).map f ↔ ∃ k, i ≤ k ∧ k ≤ j ∧ f k = 0
  := by
  simp only [List.mem_map, List.mem_range'_1]
  constructor
  · rintro ⟨k, ⟨hi, hj⟩, hzero⟩
    exact ⟨k, hi, by omega, hzero⟩
  · rintro ⟨k, hi, hj, hzero⟩
    exact ⟨k, ⟨hi, by omega⟩, hzero⟩

/-- The elements of a range of registers that hold residues are inverted, or refused for a zero. -/
theorem batchInverse_of_holds {f : Nat → Residue}
    (hf : ∀ k, i ≤ k → k ≤ j → Holds regs k (f k)) :
  ∃ as, readRange regs i j = .ok as
    ∧ ExceptRel (List.Forall₂ FieldElement.Denotes) (FieldElement.batchInverse as)
      (if 0 ∈ (List.range' i (j + 1 - i)).map f then .error .zeroInBatch
        else .ok (((List.range' i (j + 1 - i)).map f).map (·⁻¹)))
  := by
  obtain ⟨as, has, hdenotes⟩ := readRange_of_holds hf
  obtain ⟨hbounded, hresidues⟩ := bounded_of_forall₂ hdenotes
  exact ⟨as, has, hresidues ▸ denotes_batchInverse hbounded⟩

/-- A batch inversion leaves the inverses in a range of registers that hold no zero. -/
theorem step_batchInverse {f : Nat → Residue} (hf : ∀ k, i ≤ k → k ≤ j → Holds regs k (f k))
    (hnonzero : ∀ k, i ≤ k → k ≤ j → f k ≠ 0) :
  ∃ p, (step regs limbs (batchInverse i j)).run = .ok p
    ∧ ∀ k, i ≤ k → k ≤ j → Holds p.2 k (f k)⁻¹
  := by
  obtain ⟨as, has, hrel⟩ := batchInverse_of_holds hf
  have hmem : 0 ∉ (List.range' i (j + 1 - i)).map f := by
    rw [zero_mem_range_iff]
    rintro ⟨k, hi, hj, hzero⟩
    exact hnonzero k hi hj hzero
  rw [if_neg hmem, List.map_map] at hrel
  generalize hbatch : FieldElement.batchInverse as = outcome at hrel
  cases hrel with
  | @ok inverses _ hinverses =>
    refine ⟨(.elements inverses, replaceRange regs i inverses), ?_, ?_⟩
    · refine (run_bind_of_ok has).trans ((run_bind_of_ok (congrArg Except.ok hbatch)).trans ?_)
      rfl
    · intro k hi hj
      have hlength : inverses.length = j + 1 - i := by
        rw [hinverses.length_eq, List.length_map, List.length_range']
      have hroom : inverses.length ≤ regs.length - i := by
        have hlast := (hf j (hi.trans hj) le_rfl).lt_length
        omega
      have hk : k - i < inverses.length := by omega
      refine ⟨inverses.get ⟨k - i, hk⟩, ?_, ?_⟩
      · rw [getElem?_replaceRange regs hroom, if_pos (by omega)]
        exact List.getElem?_eq_getElem hk
      · have hget := hinverses.get hk (hinverses.length_eq ▸ hk)
        simpa [Nat.add_sub_cancel' hi] using hget

/-- A batch inversion of a range of registers one of which holds zero is refused. -/
theorem step_batchInverse_of_zero {f : Nat → Residue}
    (hf : ∀ k, i ≤ k → k ≤ j → Holds regs k (f k)) (hzero : ∃ k, i ≤ k ∧ k ≤ j ∧ f k = 0) :
  (step regs limbs (batchInverse i j)).run = .error (.fault .zeroInBatch)
  := by
  obtain ⟨as, has, hrel⟩ := batchInverse_of_holds hf
  rw [if_pos (zero_mem_range_iff.mpr hzero)] at hrel
  generalize hbatch : FieldElement.batchInverse as = outcome at hrel
  cases hrel
  refine (run_bind_of_ok has).trans ((run_bind_of_ok (congrArg Except.ok hbatch)).trans ?_)
  rfl

/-- A register that is kept holds what it held before. -/
theorem Holds.frame {written : List Nat} (h : Holds regs i r) (hframe : Frame written regs after)
    (hi : i ∉ written) :
  Holds after i r
  := by
  have hkept := hframe.kept h.lt_length hi
  obtain ⟨a, ha, hdenotes⟩ := h
  exact ⟨a, hkept.trans ha, hdenotes⟩

/-- What a register holds, it holds after every program that does not write it in place. -/
theorem runWith_holds (h : Holds regs i r) {program : List Instruction}
    (hi : i ∉ program.flatMap inPlace) :
  Holds (runWith limbs regs program).run.2 i r
  := h.frame (runWith_frame (fun h => (batchInverse_ok h).1) regs program) hi

end Holds

end HashToCurve.Instruction

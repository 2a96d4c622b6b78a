import Linewise.Proofs.BindingInvariants

/-! The texts that variables hold. A text is kept where it is written as a literal, or it is
handed on by a variable, and only to a type that the variable stands for. Types stand for each
other in rows as they do in pairs, so a text that was copied many times still is a literal. -/

namespace Linewise

namespace Ty

theorem standsFor_iff {source target : Ty} :
    source.standsFor target = true ↔ source = target ∨ source.isNumeric = true ∧ target.isNumeric = true := by
  simp [standsFor]

theorem standsFor_trans {first middle last : Ty} (begins : first.standsFor middle = true)
    (goes : middle.standsFor last = true) : first.standsFor last = true := by
  rw [standsFor_iff] at begins goes ⊢
  rcases begins with rfl | ⟨source, shared⟩
  · exact goes
  · rcases goes with rfl | ⟨-, target⟩
    · exact Or.inr ⟨source, shared⟩
    · exact Or.inr ⟨source, target⟩

theorem eq_of_standsFor {source target : Ty} (stands : source.standsFor target = true)
    (other : target.isNumeric = false) : source = target := by
  rcases standsFor_iff.mp stands with same | ⟨-, numeric⟩
  · exact same
  · rw [other] at numeric
    cases numeric

theorem isNumeric_of_standsFor {source target : Ty} (stands : source.standsFor target = true)
    (numeric : target.isNumeric = true) : source.isNumeric = true := by
  rcases standsFor_iff.mp stands with rfl | ⟨source, -⟩
  · exact numeric
  · exact source

end Ty

private theorem first_of_isIdentifier {c : Char} {rest : Text} (named : isIdentifier (c :: rest) = true) :
    c.isAlpha = true ∨ c = '_' := by
  simp only [isIdentifier, Bool.and_eq_true] at named
  cases rest with
  | nil => exact Or.inl named.1
  | cons d rest =>
    simp only [hasNameShape, Bool.and_eq_true, Bool.or_eq_true, beq_iff_eq] at named
    exact named.1.1.imp And.left And.left

namespace Literal

variable {ty : Ty} {t : Text} {c : Char} {rest : Text}

theorem isNumeric_of_isOf (numeric : ty.isNumeric = true) (written : isOf ty t = true) : isNumeric t = true := by
  cases ty with
  | int => exact Bool.or_eq_true_iff.mpr (Or.inl written)
  | double => exact Bool.or_eq_true_iff.mpr (Or.inr written)
  | boolean | char | string => cases numeric

private theorem first_of_isNumeric (numeric : isNumeric (c :: rest) = true) :
    (c = '+' ∨ c = '-' ∨ c = '.') ∨ c.isDigit = true := by
  by_cases marked : c = '+' ∨ c = '-' ∨ c = '.'
  · exact Or.inl marked
  · right
    rw [not_or, not_or] at marked
    obtain ⟨plus, minus, point⟩ := marked
    have whole : unsigned (c :: rest) = c :: rest := by simp [unsigned, plus, minus]
    have before : (c :: rest).takeWhile (· != '.') = c :: rest.takeWhile (· != '.') :=
      List.takeWhile_cons_of_pos (by simpa using point)
    simp only [isNumeric, isInt, isDouble, whole, before, List.all_cons, Bool.or_eq_true, Bool.and_eq_true] at numeric
    rcases numeric with ⟨_, digit, _⟩ | ⟨⟨_, digit, _⟩, _⟩
    · exact digit
    · exact digit

private theorem isAlpha_of_isDigit (digit : c.isDigit = true) : c.isAlpha = false := by
  have small : c.toNat ≤ '9'.toNat := (Char.isDigit_iff_toNat.mp digit).2
  have below : ∀ letter : Char, '9'.toNat < letter.toNat → ¬ letter.val ≤ c.val := by
    intro letter above reached
    have bound : letter.toNat ≤ c.toNat := UInt32.le_iff_toNat_le.mp reached
    omega
  have upper : c.isUpper = false := decide_eq_false fun between => below 'A' (by decide) between.1
  have lower : c.isLower = false := by
    change (decide ('a'.val ≤ c.val) && decide (c.val ≤ 'z'.val)) = false
    rw [decide_eq_false (below 'a' (by decide)), Bool.false_and]
  change (c.isUpper || c.isLower) = false
  rw [upper, lower, Bool.or_false]

private theorem isIdentifier_of_isNumeric (numeric : isNumeric t = true) : isIdentifier t = false := by
  cases t with
  | nil => rfl
  | cons c rest =>
    rw [← Bool.not_eq_true]
    intro named
    rcases first_of_isIdentifier named with letter | rfl
    · rcases first_of_isNumeric numeric with (rfl | rfl | rfl) | digit
      · cases letter
      · cases letter
      · cases letter
      · rw [isAlpha_of_isDigit digit] at letter
        cases letter
    · rcases first_of_isNumeric numeric with marked | digit
      · revert marked
        decide
      · cases digit

private theorem isIdentifier_of_quoted (quoted : c = Text.singleQuote ∨ c = Text.doubleQuote) :
    isIdentifier (c :: rest) = false := by
  rw [← Bool.not_eq_true]
  intro named
  rcases first_of_isIdentifier named with letter | rfl
  · rcases quoted with rfl | rfl <;> cases letter
  · revert quoted
    decide

/-- No literal is a name. -/
theorem isIdentifier_of_isOf (written : isOf ty t = true) : isIdentifier t = false := by
  cases ty with
  | int => exact isIdentifier_of_isNumeric (isNumeric_of_isOf rfl written)
  | double => exact isIdentifier_of_isNumeric (isNumeric_of_isOf rfl written)
  | boolean =>
    simp only [isOf, isBoolean, Bool.or_eq_true, beq_iff_eq] at written
    rcases written with rfl | rfl <;> rfl
  | char =>
    simp only [isOf] at written
    unfold isChar at written
    split at written
    · simp only [Bool.and_eq_true, beq_iff_eq] at written
      exact isIdentifier_of_quoted (Or.inl written.1)
    · cases written
  | string =>
    cases t with
    | nil => rfl
    | cons c rest =>
      simp only [isOf, isString, Bool.and_eq_true, beq_iff_eq] at written
      exact isIdentifier_of_quoted (Or.inr written.1)

end Literal

/-- What the binding holds, if it holds anything, is a literal of a type that stands for its own. -/
def Binding.HoldsLiteral (binding : Binding) : Prop :=
  ∀ t, binding.value = some t → ∃ ty : Ty, ty.standsFor binding.ty = true ∧ Literal.isOf ty t = true

namespace StoredLiterals

private theorem literal_of_takes {target : Ty} {t : Text} {stored : Option Text}
    (takes : target.Takes Binding.HoldsLiteral stored) (same : stored = some t) :
    ∃ ty : Ty, ty.standsFor target = true ∧ Literal.isOf ty t = true := by
  cases takes with
  | literal written =>
    cases same
    exact ⟨target, Ty.standsFor_iff.mpr (Or.inl rfl), written⟩
  | handedOn held stands _ =>
    -- what stands for the variable stands for what the variable stands for
    obtain ⟨ty, first, written⟩ := held t same
    exact ⟨ty, Ty.standsFor_trans first stands, written⟩

theorem holdsLiteral_lasting (allowed : Parameter → Prop) : Binding.Lasting allowed Binding.HoldsLiteral where
  parameter _ _ := nofun
  unset _ _ _ := nofun
  valued _ _ _ _ _ takes _ same := literal_of_takes takes same
  assigned _ _ _ _ takes _ same := literal_of_takes takes same

/-- Wherever a session comes to, a text that is held is a literal of a type that stands for the
binding's: a number for the numeric types, and else a literal of the type itself. The name of
a variable is never held. -/
theorem stored_texts_are_literals {steps : List Step} (regular : ∀ step ∈ steps, step.Regular fun _ => True) :
    ∀ scope ∈ (session steps {}).2.frames, ∀ binding ∈ scope, ∀ t, binding.value = some t →
      (∃ ty : Ty, ty.standsFor binding.ty = true ∧ Literal.isOf ty t = true) ∧
        (binding.ty.isNumeric = true → Literal.isNumeric t = true) ∧
        (binding.ty.isNumeric = false → Literal.isOf binding.ty t = true) ∧ isIdentifier t = false := by
  intro scope member binding bound t held
  have holds := ScopeChanges.session_holds regular (holdsLiteral_lasting _) scope member binding bound
  obtain ⟨ty, stands, written⟩ := holds t held
  refine ⟨⟨ty, stands, written⟩, ?_, ?_, Literal.isIdentifier_of_isOf written⟩
  · intro numeric
    exact Literal.isNumeric_of_isOf (Ty.isNumeric_of_standsFor stands numeric) written
  · intro other
    rwa [← Ty.eq_of_standsFor stands other]

/-- A number goes from variable to variable, over types and scopes, into a method that writes it
to a variable outside and then ends at a fault. -/
def passingOn : List Step :=
  [.variableLine "int a = -5, d;".toList, .variableLine "double b = a;".toList, .openScope,
    .parameter ⟨"p".toList, .double, false⟩, .variableLine "int c = b, e = missing;".toList,
    .method {} ⟨"f".toList, [], ["double g = c;".toList, "d = g;".toList, "return".toList, "return;".toList, ['}']]⟩]

theorem passingOn_stores_literals :
    (∀ step ∈ passingOn, step.Regular fun _ => True) ∧
      (session passingOn {}).1 = [.ok (), .ok (), .ok (), .ok (), .error (.unknownVariable "missing".toList),
        .error (.unrecognizedLine "return".toList)] ∧
      (session passingOn {}).2.lookup "d".toList = some ⟨"d".toList, .int, false, true, some "-5".toList⟩ ∧
      ∀ scope ∈ (session passingOn {}).2.frames, ∀ binding ∈ scope, binding.HoldsLiteral := by
  have regular : ∀ step ∈ passingOn, step.Regular fun _ => True := by
    simp only [passingOn, List.forall_mem_cons]
    exact ⟨.variableLine _, .variableLine _, .openScope, .parameter trivial, .variableLine _,
      .method {} (fun _ _ => trivial), List.forall_mem_nil _⟩
  refine ⟨regular, by decide +kernel, by decide +kernel, ?_⟩
  intro scope member binding bound t held
  exact (stored_texts_are_literals regular scope member binding bound t held).1

end StoredLiterals
end Linewise

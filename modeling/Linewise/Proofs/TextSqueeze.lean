import Linewise.Proofs.TextTrim

/-! Squeezing the blanks of a text does not change what is read from it. Whatever is cut out of the
squeezed text is what is cut out of the text, squeezed: blanks separate the same parts, however
many of them stand in a row. -/

namespace Linewise.Text

variable {c : Char} {t rest : Text}

theorem isBlank_space : isBlank ' ' = true := by
  decide

theorem ink_singleton (ink : isBlank c = false) : ∀ d ∈ [c], isBlank d = false := by
  simpa using ink

theorem squeeze_ink (ink : isBlank c = false) (t : Text) : squeeze (c :: t) = c :: squeeze t := by
  rw [squeeze, if_neg (by simp [ink])]

theorem trimLeft_squeeze (t : Text) : t.squeeze.trimLeft = t.trimLeft.squeeze := by
  induction t with
  | nil => rfl
  | cons c t ih =>
    cases blank : isBlank c with
    | true =>
      rw [squeeze, if_pos blank, trimLeft_blank isBlank_space, trimLeft_blank blank, trimLeft_trimLeft]
      exact ih
    | false => rw [squeeze_ink blank, trimLeft_ink blank, trimLeft_ink blank, squeeze_ink blank]

/-- A run of blanks is one space. -/
theorem squeeze_blank (blank : isBlank c = true) (t : Text) : squeeze (c :: t) = ' ' :: squeeze t.trimLeft := by
  rw [squeeze, if_pos blank, trimLeft_squeeze]

theorem squeeze_eq_nil_iff : t.squeeze = [] ↔ t = [] := by
  cases t with
  | nil => exact Iff.rfl
  | cons c t => cases blank : isBlank c <;> simp [squeeze, blank]

theorem isEmpty_squeeze (t : Text) : t.squeeze.isEmpty = t.isEmpty := by
  rw [Bool.eq_iff_iff, List.isEmpty_iff, List.isEmpty_iff, squeeze_eq_nil_iff]

theorem trimRight_cons (c : Char) (t : Text) :
    trimRight (c :: t) = if t.trimRight = [] ∧ isBlank c = true then [] else c :: t.trimRight := by
  simp only [trimRight, List.reverse_cons, List.dropWhile_append, List.isEmpty_iff, List.reverse_eq_nil_iff]
  by_cases empty : t.reverse.dropWhile isBlank = []
  · cases blank : isBlank c <;> simp [empty, blank]
  · simp [empty]

theorem trimRight_ink (ink : isBlank c = false) (t : Text) : trimRight (c :: t) = c :: t.trimRight := by
  simp [trimRight_cons, ink]

theorem trimRight_eq_nil_iff : t.trimRight = [] ↔ t.trimLeft = [] := by
  induction t with
  | nil => exact Iff.rfl
  | cons c t ih => cases blank : isBlank c <;> simp [trimRight_cons, trimLeft_cons, blank, ih]

theorem trimRight_trimLeft (t : Text) : t.trimLeft.trimRight = t.trimRight.trimLeft := by
  induction t with
  | nil => rfl
  | cons c t ih =>
    cases blank : isBlank c with
    | false => rw [trimLeft_ink blank, trimRight_ink blank, trimLeft_ink blank]
    | true =>
      rw [trimLeft_blank blank, ih, trimRight_cons]
      split
      · next empty => rw [empty.1]
      · rw [trimLeft_blank blank]

/-- What is trimmed on the right is nothing but blanks only if it is nothing. -/
theorem trimLeft_trimRight_eq_nil_iff : t.trimRight.trimLeft = [] ↔ t.trimRight = [] := by
  rw [← trimRight_trimLeft, trimRight_eq_nil_iff, trimLeft_trimLeft, trimRight_eq_nil_iff]

theorem trimRight_squeeze (t : Text) : t.squeeze.trimRight = t.trimRight.squeeze := by
  induction t with
  | nil => rfl
  | cons c t ih =>
    cases blank : isBlank c with
    | false => rw [squeeze_ink blank, trimRight_ink blank, trimRight_ink blank, squeeze_ink blank, ih]
    | true =>
      have behind : trimRight (squeeze (trimLeft t)) = squeeze (trimLeft (trimRight t)) := by
        rw [← trimLeft_squeeze, trimRight_trimLeft, ih, trimLeft_squeeze]
      rw [squeeze_blank blank, trimRight_cons, trimRight_cons, behind]
      simp only [squeeze_eq_nil_iff, trimLeft_trimRight_eq_nil_iff, isBlank_space, blank, and_true]
      split
      · rfl
      · rw [squeeze_blank blank]

theorem trim_squeeze (t : Text) : t.squeeze.trim = t.trim.squeeze := by
  rw [trim, trimLeft_squeeze, trimRight_squeeze, trim]

theorem squeeze_squeeze (t : Text) : t.squeeze.squeeze = t.squeeze := by
  induction t with
  | nil => rfl
  | cons c t ih =>
    cases blank : isBlank c with
    | false => rw [squeeze_ink blank, squeeze_ink blank, ih]
    | true =>
      rw [squeeze_blank blank, squeeze_blank isBlank_space, trimLeft_squeeze, trimLeft_trimLeft, ← trimLeft_squeeze t,
        ← trimLeft_squeeze (squeeze t), ih]

/-- A text without blanks is as good as squeezed. -/
theorem squeeze_of_ink (ink : ∀ c ∈ t, isBlank c = false) : t.squeeze = t := by
  induction t with
  | nil => rfl
  | cons c t ih => rw [squeeze_ink (ink c (by simp)), ih fun d member => ink d (by simp [member])]

theorem squeeze_append_ink (ink : isBlank c = false) (t rest : Text) :
    squeeze (t ++ c :: rest) = t.squeeze ++ c :: rest.squeeze := by
  induction t with
  | nil => exact squeeze_ink ink rest
  | cons d t ih =>
    cases blank : isBlank d with
    | false => rw [List.cons_append, squeeze_ink blank, squeeze_ink blank, ih, List.cons_append]
    | true =>
      rw [List.cons_append, squeeze_blank blank, squeeze_blank blank, ← trimLeft_squeeze, ih, trimLeft_append_ink ink,
        trimLeft_squeeze, List.cons_append]

theorem mem_squeeze_iff (ink : isBlank c = false) : c ∈ t.squeeze ↔ c ∈ t := by
  constructor
  · intro member
    induction t with
    | nil => exact member
    | cons d t ih =>
      cases blank : isBlank d with
      | false =>
        rw [squeeze_ink blank] at member
        exact (List.mem_cons.mp member).elim (fun same => same ▸ List.mem_cons_self) fun later =>
          List.mem_cons_of_mem d (ih later)
      | true =>
        rw [squeeze_blank blank, ← trimLeft_squeeze] at member
        rcases List.mem_cons.mp member with rfl | member
        · cases ink
        · exact List.mem_cons_of_mem d (ih ((List.dropWhile_suffix isBlank).subset member))
  · intro member
    obtain ⟨before, after, rfl⟩ := List.append_of_mem member
    simp [squeeze_append_ink ink]

theorem space_mem_squeeze (blank : isBlank c = true) (member : c ∈ t) : ' ' ∈ t.squeeze := by
  induction t with
  | nil => cases member
  | cons d t ih =>
    cases first : isBlank d with
    | true =>
      rw [squeeze_blank first]
      exact List.mem_cons_self
    | false =>
      rw [squeeze_ink first]
      rcases List.mem_cons.mp member with rfl | member
      · rw [first] at blank
        cases blank
      · exact List.mem_cons_of_mem d (ih member)

/-- What no text with a blank in it can be does not depend on the blanks. -/
theorem squeeze_congr {f : Text → Bool} (bare : ∀ t, f t = true → ∀ c ∈ t, isBlank c = false) (t : Text) :
    f t.squeeze = f t := by
  by_cases spaced : ∃ c ∈ t, isBlank c = true
  · obtain ⟨c, member, blank⟩ := spaced
    have unlike (u : Text) (d : Char) (there : d ∈ u) (gap : isBlank d = true) : f u = false := by
      rw [← Bool.not_eq_true]
      intro holds
      rw [bare u holds d there] at gap
      cases gap
    rw [unlike t c member blank, unlike t.squeeze ' ' (space_mem_squeeze blank member) isBlank_space]
  · have ink : ∀ c ∈ t, isBlank c = false := by
      intro c member
      rw [← Bool.not_eq_true]
      exact fun blank => spaced ⟨c, member, blank⟩
    rw [squeeze_of_ink ink]

theorem squeeze_eq_iff {word : Text} (ink : ∀ c ∈ word, isBlank c = false) : t.squeeze = word ↔ t = word := by
  have same := squeeze_congr (f := (· == word)) (fun t equal => by rw [beq_iff_eq.mp equal]; exact ink) t
  rwa [Bool.eq_iff_iff, beq_iff_eq, beq_iff_eq] at same

section
variable {p : Char → Bool}

theorem any_squeeze (stops : ∀ c, isBlank c = true → p c = false) (t : Text) : t.squeeze.any p = t.any p := by
  have inked (c : Char) (holds : p c = true) : isBlank c = false := by
    rw [← Bool.not_eq_true]
    intro blank
    rw [stops c blank] at holds
    cases holds
  rw [Bool.eq_iff_iff, List.any_eq_true, List.any_eq_true]
  constructor
  · intro ⟨c, member, holds⟩
    exact ⟨c, (mem_squeeze_iff (inked c holds)).mp member, holds⟩
  · intro ⟨c, member, holds⟩
    exact ⟨c, (mem_squeeze_iff (inked c holds)).mpr member, holds⟩

theorem takeWhile_squeeze_of_stops (stops : ∀ c, isBlank c = true → p c = false) (t : Text) :
    t.squeeze.takeWhile p = t.takeWhile p := by
  induction t with
  | nil => rfl
  | cons c t ih =>
    cases blank : isBlank c with
    | true =>
      rw [squeeze_blank blank, List.takeWhile_cons_of_neg (by simp [stops ' ' isBlank_space]),
        List.takeWhile_cons_of_neg (by simp [stops c blank])]
    | false => rw [squeeze_ink blank, List.takeWhile_cons, List.takeWhile_cons, ih]

theorem dropWhile_squeeze_of_stops (stops : ∀ c, isBlank c = true → p c = false) (t : Text) :
    t.squeeze.dropWhile p = squeeze (t.dropWhile p) := by
  induction t with
  | nil => rfl
  | cons c t ih =>
    cases blank : isBlank c with
    | true =>
      rw [squeeze_blank blank, List.dropWhile_cons_of_neg (by simp [stops ' ' isBlank_space]),
        List.dropWhile_cons_of_neg (by simp [stops c blank]), squeeze_blank blank]
    | false =>
      rw [squeeze_ink blank, List.dropWhile_cons, List.dropWhile_cons, ih]
      split
      · rfl
      · rw [squeeze_ink blank]

private theorem takeWhile_trimLeft (passes : ∀ c, isBlank c = true → p c = true) (t : Text) :
    t.trimLeft.takeWhile p = trimLeft (t.takeWhile p) := by
  induction t with
  | nil => rfl
  | cons c t ih =>
    cases blank : isBlank c with
    | true => rw [trimLeft_blank blank, List.takeWhile_cons_of_pos (passes c blank), trimLeft_blank blank, ih]
    | false =>
      rw [trimLeft_ink blank, List.takeWhile_cons]
      split
      · rw [trimLeft_ink blank]
      · rfl

private theorem dropWhile_trimLeft (passes : ∀ c, isBlank c = true → p c = true) (t : Text) :
    t.trimLeft.dropWhile p = t.dropWhile p := by
  induction t with
  | nil => rfl
  | cons c t ih =>
    cases blank : isBlank c with
    | true => rw [trimLeft_blank blank, List.dropWhile_cons_of_pos (passes c blank), ih]
    | false => rw [trimLeft_ink blank]

theorem takeWhile_squeeze_of_passes (passes : ∀ c, isBlank c = true → p c = true) (t : Text) :
    t.squeeze.takeWhile p = squeeze (t.takeWhile p) := by
  induction t with
  | nil => rfl
  | cons c t ih =>
    cases blank : isBlank c with
    | true =>
      rw [squeeze_blank blank, List.takeWhile_cons_of_pos (passes ' ' isBlank_space), ← trimLeft_squeeze,
        takeWhile_trimLeft passes, ih, trimLeft_squeeze, List.takeWhile_cons_of_pos (passes c blank), squeeze_blank blank]
    | false =>
      rw [squeeze_ink blank, List.takeWhile_cons, List.takeWhile_cons, ih]
      split
      · rw [squeeze_ink blank]
      · rfl

theorem dropWhile_squeeze_of_passes (passes : ∀ c, isBlank c = true → p c = true) (t : Text) :
    t.squeeze.dropWhile p = squeeze (t.dropWhile p) := by
  induction t with
  | nil => rfl
  | cons c t ih =>
    cases blank : isBlank c with
    | true =>
      rw [squeeze_blank blank, List.dropWhile_cons_of_pos (passes ' ' isBlank_space), ← trimLeft_squeeze,
        dropWhile_trimLeft passes, ih, List.dropWhile_cons_of_pos (passes c blank)]
    | false =>
      rw [squeeze_ink blank, List.dropWhile_cons, List.dropWhile_cons, ih]
      split
      · rfl
      · rw [squeeze_ink blank]

end

/-! Readers of words and marks. -/

theorem after?_squeeze {token : Text} (ink : ∀ c ∈ token, isBlank c = false) (t : Text) :
    t.squeeze.after? token = (t.after? token).map squeeze := by
  induction token generalizing t with
  | nil => simp [after?]
  | cons c token ih =>
    have inked := ink c (by simp)
    cases t with
    | nil => rfl
    | cons d t =>
      cases blank : isBlank d with
      | false =>
        rw [squeeze_ink blank, after?, after?]
        split
        · exact ih (fun e member => ink e (by simp [member])) t
        · rfl
      | true =>
        have apart (e : Char) (gap : isBlank e = true) : e ≠ c := by
          rintro rfl
          rw [inked] at gap
          cases gap
        rw [squeeze_blank blank, after?, after?, if_neg (apart ' ' isBlank_space), if_neg (apart d blank)]
        rfl

theorem startsWord_squeeze (t : Text) : t.squeeze.startsWord = t.startsWord := by
  cases t with
  | nil => rfl
  | cons c t =>
    cases blank : isBlank c with
    | false =>
      rw [squeeze_ink blank]
      rfl
    | true =>
      rw [squeeze_blank blank, startsWord, startsWord, isWordChar_of_isBlank blank, isWordChar_of_isBlank isBlank_space]

theorem afterWord?_squeeze {word : Text} (ink : ∀ c ∈ word, isBlank c = false) (t : Text) :
    t.squeeze.afterWord? word = (t.afterWord? word).map squeeze := by
  rw [afterWord?, afterWord?, after?_squeeze ink]
  cases t.after? word with
  | none => rfl
  | some rest =>
    dsimp only [Option.map_some]
    rw [startsWord_squeeze]
    split <;> rfl

theorem afterBlanks?_squeeze (t : Text) : t.squeeze.afterBlanks? = t.afterBlanks?.map squeeze := by
  cases t with
  | nil => rfl
  | cons c t =>
    cases blank : isBlank c with
    | false => simp [squeeze_ink blank, afterBlanks?, blank]
    | true => simp [squeeze_blank blank, afterBlanks?, blank, isBlank_space, ← trimLeft_squeeze, trimLeft_trimLeft]

theorem rawName?_squeeze (t : Text) : t.squeeze.rawName? = t.rawName?.map (Prod.map id squeeze) := by
  cases t with
  | nil => rfl
  | cons c t =>
    cases blank : isBlank c with
    | false =>
      have stops (d : Char) (gap : isBlank d = true) : isWordChar d = false := isWordChar_of_isBlank gap
      rw [squeeze_ink blank, rawName?, rawName?, takeWhile_squeeze_of_stops stops, dropWhile_squeeze_of_stops stops]
      split <;> rfl
    | true =>
      have unlike (d : Char) (gap : isBlank d = true) : (d.isAlpha || d == '_') = false := by
        rw [← Bool.not_eq_true]
        intro starts
        have word := isWordChar_of_starts starts
        rw [isWordChar_of_isBlank gap] at word
        cases word
      rw [squeeze_blank blank, rawName?, rawName?, unlike ' ' isBlank_space, unlike c blank]
      rfl

theorem getLast?_of_squeeze {mark : Char} (ink : isBlank mark = false) (last : t.squeeze.getLast? = some mark) :
    t.getLast? = some mark := by
  induction t with
  | nil => cases last
  | cons c t ih =>
    cases blank : isBlank c with
    | false =>
      rw [squeeze_ink blank, List.getLast?_cons] at last
      rw [List.getLast?_cons]
      cases later : (squeeze t).getLast? with
      | none =>
        rw [List.getLast?_eq_none_iff, squeeze_eq_nil_iff] at later
        rwa [later] at last ⊢
      | some d =>
        rw [later] at last
        cases last
        rw [ih later]
        rfl
    | true =>
      rw [squeeze_blank blank, List.getLast?_cons, ← trimLeft_squeeze] at last
      cases later : (trimLeft (squeeze t)).getLast? with
      | none =>
        rw [later] at last
        cases last
        cases ink
      | some d =>
        have same : d = mark := by
          rw [later] at last
          exact Option.some.inj last
        rw [same] at later
        obtain ⟨before, whole⟩ := List.dropWhile_suffix (l := squeeze t) isBlank
        have kept : (squeeze t).getLast? = some mark := by
          rw [← whole, List.getLast?_append]
          change (trimLeft (squeeze t)).getLast?.or _ = _
          rw [later]
          rfl
        rw [List.getLast?_cons, ih kept]
        rfl

theorem beforeLast?_squeeze {mark : Char} (ink : isBlank mark = false) (t : Text) :
    t.squeeze.beforeLast? mark = (t.beforeLast? mark).map squeeze := by
  cases found : t.beforeLast? mark with
  | some front =>
    rw [beforeLast?_eq_some_iff] at found
    rw [found, squeeze_append_ink ink]
    exact beforeLast?_eq_some_iff.mpr rfl
  | none =>
    rw [beforeLast?] at found ⊢
    split
    · next last =>
      rw [if_pos (getLast?_of_squeeze ink last)] at found
      cases found
    · rfl

theorem bracketed?_squeeze {mark : Char} (ink : isBlank mark = false) (t : Text) :
    t.squeeze.bracketed? mark = (t.bracketed? mark).map squeeze := by
  have opening : isBlank '(' = false := rfl
  have closing : isBlank ')' = false := rfl
  rw [bracketed?, bracketed?, trimLeft_squeeze, after?_squeeze (ink_singleton opening)]
  cases t.trimLeft.after? ['('] with
  | none => rfl
  | some rest =>
    dsimp only [Option.map_some]
    rw [beforeLast?_squeeze ink]
    cases rest.beforeLast? mark with
    | none => rfl
    | some inner =>
      dsimp only [Option.map_some]
      rw [trimRight_squeeze, beforeLast?_squeeze closing]

end Linewise.Text

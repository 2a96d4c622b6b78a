import Linewise.Proofs.ScopeHeights
import Linewise.Proofs.SpelledParts
import Linewise.Proofs.StatementKinds
import Mathlib.Data.List.Forall2

/-! Statements are read back from the lines they were written on, with blanks wherever they may
stand. Names have to be proper, and a value has to close its quotes and to hide its commas in
them. Then the check of the line does what the statement says, and nothing of how it was written
matters. -/

namespace Linewise
open Text

/-- A text that is taken for one value wherever values are separated by commas. -/
structure Text.IsItem (t : Text) : Prop where
  shown : t.trim ≠ []
  seals : Seals ',' none t

namespace Fragment

inductive Spelled : Fragment → Text → Prop where
  | bare {name before after} (first : ∀ c ∈ before, isBlank c = true) (last : ∀ c ∈ after, isBlank c = true) :
    Spelled ⟨name, none⟩ (before ++ name ++ after)
  | valued {name value before gap space after} (first : ∀ c ∈ before, isBlank c = true)
      (left : ∀ c ∈ gap, isBlank c = true) (right : ∀ c ∈ space, isBlank c = true)
      (last : ∀ c ∈ after, isBlank c = true) :
    Spelled ⟨name, some value⟩ (before ++ name ++ gap ++ '=' :: (space ++ value ++ after))

structure IsProper (fragment : Fragment) : Prop where
  named : isIdentifier fragment.name = true
  valued : ∀ value, fragment.value? = some value → value.IsItem

def declared (isFinal : Bool) (ty : Ty) (fragment : Fragment) (scopes : Scopes) : Except Fault Scopes :=
  if scopes.current.contains fragment.name then .error (.redeclaration fragment.name)
  else match fragment.value? with
    | none =>
      if isFinal then .error (.finalWithoutValue fragment.name)
      else .ok { scopes with current := ⟨fragment.name, ty, isFinal, false, none⟩ :: scopes.current }
    | some value =>
      match Check.value scopes ty value with
      | .error fault => .error fault
      | .ok stored => .ok { scopes with current := ⟨fragment.name, ty, isFinal, true, stored⟩ :: scopes.current }

def assigned (name value : Text) (scopes : Scopes) : Except Fault Scopes :=
  match scopes.lookup name with
  | none => .error (.unknownVariable name)
  | some target =>
    if target.isFinal then .error (.assignmentToFinal name)
    else match Check.value scopes target.ty value with
      | .error fault => .error fault
      | .ok stored => .ok (scopes.assign name stored)

variable {fragment : Fragment} {t : Text}

/-- What is read of a fragment is its name and its value, but for the blanks around them. -/
theorem ofText_of_spelled (named : isIdentifier fragment.name = true) (spelled : fragment.Spelled t) :
    ofText t = ⟨fragment.name, fragment.value?.map trim⟩ := by
  have name : fragment.name.trim = fragment.name := trim_of_ink (ink_of_isIdentifier named)
  have unlike {t : Text} (spread : t.IsSpread) : ∀ c ∈ t, (c != '=') = true := by
    intro c member
    exact bne_iff_ne.mpr (spread.isPlain_of_mark rfl rfl c member).2
  have words : fragment.name.IsSpread := .of_words (isWordChar_of_isIdentifier named)
  cases spelled with
  | @bare name before after first last =>
    have all := unlike (((IsSpread.of_blanks first).append words).append (.of_blanks last))
    rw [ofText, List.dropWhile_eq_nil_iff.mpr all]
    dsimp only
    rw [trim_between_blanks first last, name]
    rfl
  | @valued name value before gap space after first left right last =>
    have all := unlike (((IsSpread.of_blanks first).append words).append (.of_blanks left))
    rw [ofText, List.dropWhile_append_of_pos all, List.takeWhile_append_of_pos all,
      List.dropWhile_cons_of_neg (by decide), List.takeWhile_cons_of_neg (by decide), List.append_nil]
    dsimp only
    rw [trim_between_blanks first left, trim_between_blanks right last, name]
    rfl

theorem seals_of_spelled (proper : fragment.IsProper) (spelled : fragment.Spelled t) : Seals ',' none t := by
  have plain {t : Text} (spread : t.IsSpread) : ∀ c ∈ t, IsPlain ',' c := spread.isPlain_of_mark rfl rfl
  have words : fragment.name.IsSpread := .of_words (isWordChar_of_isIdentifier proper.named)
  cases spelled with
  | bare first last => exact seals_of_plain (plain (((IsSpread.of_blanks first).append words).append (.of_blanks last)))
  | valued first left right last =>
    have sign : IsPlain ',' '=' := by decide
    have front := plain (((IsSpread.of_blanks first).append words).append (.of_blanks left))
    rw [seals_append_of_plain front, seals_cons_of_plain sign, List.append_assoc,
      seals_append_of_plain (plain (.of_blanks right)), seals_append_plain (plain (.of_blanks last))]
    exact (proper.valued _ rfl).seals

theorem value_trim (scopes : Scopes) (ty : Ty) (t : Text) : Check.value scopes ty t.trim = Check.value scopes ty t := by
  rw [Check.value, Check.value, trim_trim]

private theorem exists_shown {value : Text} (item : value.IsItem) :
    ∃ c rest, value.trim = c :: rest ∧ ∀ scopes ty, Check.value scopes ty (c :: rest) = Check.value scopes ty value := by
  obtain ⟨c, rest, shown⟩ := List.exists_cons_of_ne_nil item.shown
  exact ⟨c, rest, shown, fun scopes ty => by rw [← shown, value_trim]⟩

/-- A proper fragment is declared as it says. -/
theorem declare_eq_declared (isFinal : Bool) (ty : Ty) (proper : fragment.IsProper) :
    Check.declare isFinal ty ⟨fragment.name, fragment.value?.map trim⟩ = fragment.declared isFinal ty := by
  funext scopes
  have named : (!isIdentifier fragment.name) = false := by rw [proper.named]; rfl
  rw [Check.declare, declared]
  dsimp only
  rw [named, if_neg Bool.false_ne_true]
  cases taken : scopes.current.contains fragment.name with
  | true => rfl
  | false =>
    have free (isInitialized : Bool) (stored : Option Text) :
        scopes.declare ⟨fragment.name, ty, isFinal, isInitialized, stored⟩ =
          .ok { scopes with current := ⟨fragment.name, ty, isFinal, isInitialized, stored⟩ :: scopes.current } :=
      Scopes.declare_eq_ok_iff.mpr ⟨taken, rfl⟩
    cases given : fragment.value? with
    | none => simp [free]
    | some value =>
      obtain ⟨c, rest, shown, valued⟩ := exists_shown (proper.valued value given)
      rw [Option.map_some, shown]
      dsimp only
      rw [valued]
      cases Check.value scopes ty value <;> simp [free]

theorem assign_eq_assigned {name value : Text} (proper : IsProper ⟨name, some value⟩) :
    Check.assign ⟨name, some value.trim⟩ = assigned name value := by
  funext scopes
  obtain ⟨c, rest, shown, valued⟩ := exists_shown (proper.valued value rfl)
  have named : (!isIdentifier name) = false := by rw [proper.named]; rfl
  rw [Check.assign, assigned, shown]
  dsimp only
  rw [named, if_neg Bool.false_ne_true]
  cases scopes.lookup name with
  | none => rfl
  | some target =>
    cases stored : Check.value scopes target.ty value <;>
      cases final : target.isFinal <;> simp [final, valued, stored]

private theorem each_of_spelled {fragments : List Fragment} {texts : List Text}
    (proper : ∀ fragment ∈ fragments, fragment.IsProper) (spelled : List.Forall₂ Spelled fragments texts) :
    (∀ text ∈ texts, Seals ',' none text) ∧
      texts.map ofText = fragments.map fun fragment => ⟨fragment.name, fragment.value?.map trim⟩ := by
  induction spelled with
  | nil => exact ⟨nofun, rfl⟩
  | cons here later ih =>
    obtain ⟨first, others⟩ := List.forall_mem_cons.mp proper
    obtain ⟨sealed, read⟩ := ih others
    refine ⟨List.forall_mem_cons.mpr ⟨seals_of_spelled first here, sealed⟩, ?_⟩
    rw [List.map_cons, List.map_cons, ofText_of_spelled first.named here, read]

/-- Fragments that were joined by commas are read as what they say. -/
theorem map_ofText_of_spelled {fragments : List Fragment} {texts : List Text} (nonempty : fragments ≠ [])
    (proper : ∀ fragment ∈ fragments, fragment.IsProper) (spelled : List.Forall₂ Spelled fragments texts) :
    (splitOutside ',' ([','].intercalate texts)).map ofText =
      fragments.map fun fragment => ⟨fragment.name, fragment.value?.map trim⟩ := by
  obtain ⟨sealed, read⟩ := each_of_spelled proper spelled
  have written : texts ≠ [] := by
    rintro rfl
    exact nonempty (List.forall₂_nil_right_iff.mp spelled)
  rw [splitOutside_intercalate rfl written sealed, read]

end Fragment

namespace SpelledStatements
open Statement Run

private theorem shown_of_spelled {fragment : Fragment} {text : Text} (named : isIdentifier fragment.name = true)
    (spelled : fragment.Spelled text) : text.trim ≠ [] := by
  obtain ⟨c, rest, starts⟩ : ∃ c rest, fragment.name = c :: rest := by
    apply List.exists_cons_of_ne_nil
    intro none
    rw [none] at named
    cases named
  have ink := ink_of_isIdentifier named c (by simp [starts])
  rw [Ne, trim_eq_nil_iff]
  intro blank
  cases spelled <;> simp_all

private theorem shown_of_row {fragments : List Fragment} {texts : List Text} (nonempty : fragments ≠ [])
    (proper : ∀ fragment ∈ fragments, fragment.IsProper) (spelled : List.Forall₂ Fragment.Spelled fragments texts) :
    trim ([','].intercalate texts) ≠ [] := by
  cases spelled with
  | nil => exact absurd rfl nonempty
  | @cons fragment text fragments texts here later =>
    have shown := shown_of_spelled (proper fragment (by simp)).named here
    obtain ⟨rest, whole⟩ := exists_intercalate_cons [','] text texts
    rw [Ne, trim_eq_nil_iff] at shown ⊢
    rw [whole, List.forall_mem_append]
    exact fun blank => shown blank.1

private theorem hasBody_append {body : Text} (shown : body.trim ≠ []) : hasBody (body ++ [';']) = true := by
  rw [hasBody, beforeLast?_eq_some_iff.mpr rfl]
  simp [shown]

theorem ofLine_front (isFinal : Bool) (ty : Ty) {body : Text} (shown : body.trim ≠ []) :
    ofLine (front isFinal ty ++ body ++ [';']) = some .declaration := by
  have semicolon : isBlank ';' = false := rfl
  rw [ofLine_eq_some_iff, trim_front]
  change isDeclaration (front isFinal ty ++ (body ++ [';'])) = true
  rw [isDeclaration, (isFront_front isFinal ty).typed?]
  dsimp only
  rw [trimLeft_append_ink semicolon]
  apply hasBody_append
  rwa [trim, trimLeft_trimLeft, ← trim]

theorem declaration_of_spelled (isFinal : Bool) (ty : Ty) {fragments : List Fragment} {texts : List Text}
    (nonempty : fragments ≠ []) (proper : ∀ fragment ∈ fragments, fragment.IsProper)
    (spelled : List.Forall₂ Fragment.Spelled fragments texts) :
    ofLine (front isFinal ty ++ [','].intercalate texts ++ [';']) = some .declaration ∧
      Check.variableLine (front isFinal ty ++ [','].intercalate texts ++ [';']) =
        fragments.forM fun fragment => step (fragment.declared isFinal ty) := by
  refine ⟨ofLine_front isFinal ty (shown_of_row nonempty proper spelled), ?_⟩
  rw [Check.variableLine, ofLine?_front, Fragment.map_ofText_of_spelled nonempty proper spelled]
  refine forM_map_congr fun fragment member => ?_
  rw [Fragment.declare_eq_declared isFinal ty (proper fragment member)]

private theorem ownName?_spelled {name rest : Text} (named : isIdentifier name = true) (stops : startsWord rest = false) :
    ownName? (name ++ rest) = some (name, rest) :=
  ownName?_eq_some_iff.mpr
    ⟨rawName?_eq_some_iff.mpr ⟨rfl, isRawName_of_isIdentifier named, stops⟩, isReserved_of_isIdentifier named⟩

theorem ofLine_assignment {before name gap tail : Text} (named : isIdentifier name = true)
    (first : ∀ c ∈ before, isBlank c = true) (left : ∀ c ∈ gap, isBlank c = true) (unlike : tail.head? ≠ some '=')
    (shown : tail.trim ≠ []) :
    ofLine (before ++ (name ++ (gap ++ '=' :: tail)) ++ [';']) = some .assignment := by
  have semicolon : isBlank ';' = false := rfl
  have trimmed : trim (before ++ (name ++ (gap ++ '=' :: tail)) ++ [';']) = name ++ (gap ++ '=' :: (tail ++ [';'])) := by
    rw [trim_append_ink semicolon, List.append_assoc, trimLeft_append_blanks first, List.append_assoc,
      trimLeft_of_name (isRawName_of_isIdentifier named), List.append_assoc, List.cons_append]
  have own := ownName?_spelled named (startsWord_append_blanks (c := '=') left rfl (tail ++ [';']))
  rw [ofLine_eq_some_iff, trimmed]
  change isAssignment (name ++ (gap ++ '=' :: (tail ++ [';']))) = true
  rw [isAssignment, own]
  dsimp only
  rw [trimLeft_append_blanks left, trimLeft_ink rfl]
  change ((tail ++ [';']).head? != some '=' && hasBody (tail ++ [';'])) = true
  rw [hasBody_append shown, Bool.and_true, bne_iff_ne]
  cases tail with
  | nil => exact absurd rfl shown
  | cons c tail => exact unlike

private theorem tail_of_item {space value : Text} (item : value.IsItem) (right : ∀ c ∈ space, isBlank c = true)
    (unlike : value.head? ≠ some '=') (rest : Text) :
    (space ++ value ++ rest).head? ≠ some '=' ∧ trim (space ++ value ++ rest) ≠ [] := by
  have shown := item.shown
  rw [Ne, trim_eq_nil_iff] at shown
  constructor
  · cases space with
    | nil =>
      cases value with
      | nil => exact absurd nofun shown
      | cons c value => exact unlike
    | cons c space =>
      intro sign
      cases sign
      exact absurd (right '=' List.mem_cons_self) (by decide)
  · rw [Ne, trim_eq_nil_iff]
    intro blank
    exact shown fun c member => blank c (by simp [member])

theorem assignment_of_spelled {items : List (Text × Text)} {texts : List Text} (nonempty : items ≠ [])
    (proper : ∀ item ∈ items, Fragment.IsProper ⟨item.1, some item.2⟩)
    (spelled : List.Forall₂ (fun item => Fragment.Spelled ⟨item.1, some item.2⟩) items texts)
    (unlike : ∀ item ∈ items.head?, item.2.head? ≠ some '=') :
    ofLine ([','].intercalate texts ++ [';']) = some .assignment ∧
      Check.variableLine ([','].intercalate texts ++ [';']) = items.forM fun item => step (Fragment.assigned item.1 item.2) := by
  have known : ofLine ([','].intercalate texts ++ [';']) = some .assignment := by
    cases spelled with
    | nil => exact absurd rfl nonempty
    | @cons item text items texts here later =>
      have own := proper item (by simp)
      have apart := unlike item rfl
      obtain ⟨rest, whole⟩ := exists_intercalate_cons [','] text texts
      generalize same : (⟨item.1, some item.2⟩ : Fragment) = fragment at here own
      cases here with
      | bare first last => cases same
      | @valued name value before gap space after first left right last =>
        cases same
        obtain ⟨behind, shown⟩ := tail_of_item (own.valued _ rfl) right apart (after ++ rest)
        have assigns := ofLine_assignment own.named first left behind shown
        rw [whole]
        simpa using assigns
  refine ⟨known, ?_⟩
  obtain ⟨name, rest, body, own, -, -⟩ := exists_of_assignment known
  have fragments : List.Forall₂ Fragment.Spelled (items.map fun item => ⟨item.1, some item.2⟩) texts :=
    List.forall₂_map_left_iff.mpr spelled
  have all := Fragment.map_ofText_of_spelled (by simpa using nonempty) (List.forall_mem_map.mpr proper) fragments
  have semicolon : isBlank ';' = false := rfl
  rw [Check.variableLine, ofLine?_of_ownName? own, trim_append_ink semicolon, VariableLine.fragmentsOf_trimLeft, all,
    List.map_map]
  refine forM_map_congr fun item member => ?_
  exact congrArg step (Fragment.assign_eq_assigned (proper item member))

private theorem arguments_map_trim (scopes : Scopes) (given : List Text) (parameters : List Parameter) :
    Check.arguments scopes (given.map trim) parameters = Check.arguments scopes given parameters := by
  induction given generalizing parameters with
  | nil => rfl
  | cons value given ih =>
    cases parameters with
    | nil => rfl
    | cons parameter parameters =>
      rw [List.map_cons, Check.arguments, Check.arguments, Fragment.value_trim]
      cases Check.value scopes parameter.ty value with
      | error fault => rfl
      | ok stored => exact ih parameters

private theorem argumentsOf_joined {given : List Text} (items : ∀ value ∈ given, value.IsItem) :
    (Check.argumentsOf (trim ([','].intercalate given))).map trim = given.map trim := by
  cases given with
  | nil => rfl
  | cons value given =>
    have shown : trim ([','].intercalate (value :: given)) ≠ [] := by
      have inner := (items value (by simp)).shown
      obtain ⟨rest, whole⟩ := exists_intercalate_cons [','] value given
      rw [Ne, trim_eq_nil_iff] at inner ⊢
      rw [whole, List.forall_mem_append]
      exact fun blank => inner blank.1
    have cut : splitOutside ',' ([','].intercalate (value :: given)) = value :: given :=
      splitOutside_intercalate rfl (List.cons_ne_nil value given) fun item member => (items item member).seals
    rw [Check.argumentsOf, trim_trim, if_neg (by simpa using shown), map_trim_splitOutside rfl, cut]

private theorem ofLine_call {name gap after : Text} (named : isIdentifier name = true)
    (left : ∀ c ∈ gap, isBlank c = true) (last : ∀ c ∈ after, isBlank c = true) (inner : Text) :
    ofLine (name ++ (gap ++ '(' :: inner ++ ')' :: after ++ [';'])) = some (.call name inner.trim) := by
  obtain ⟨rest, spelled, bracketed, stops⟩ := brackets_spelled left last inner ';'
  have trimmed : trim (name ++ (rest ++ [';'])) = name ++ (rest ++ [';']) :=
    trim_of_name (isRawName_of_isIdentifier named) rfl rest
  have own := ownName?_spelled named stops
  rw [spelled, ofLine_eq_some_iff, trimmed]
  change call? (name ++ (rest ++ [';'])) = some (name, inner.trim)
  simp [call?, trimmed, own, bracketed]

theorem call_of_spelled {name gap after : Text} {given : List Text} (named : isIdentifier name = true)
    (left : ∀ c ∈ gap, isBlank c = true) (last : ∀ c ∈ after, isBlank c = true) (items : ∀ value ∈ given, value.IsItem) :
    ∃ t, ofLine (name ++ (gap ++ '(' :: [','].intercalate given ++ ')' :: after ++ [';'])) = some (.call name t) ∧
      ∀ methods scopes, Check.call methods scopes name t =
        match methods.get? name with
        | none => .error (.unknownMethod name)
        | some method =>
          if given.length = method.parameters.length then Check.arguments scopes given method.parameters
          else .error (.argumentCount name method.parameters.length given.length) := by
  refine ⟨_, ofLine_call named left last _, fun methods scopes => ?_⟩
  have joined := argumentsOf_joined items
  have counted : (Check.argumentsOf (trim ([','].intercalate given))).length = given.length := by
    simpa using congrArg List.length joined
  rw [Check.call]
  cases methods.get? name with
  | none => rfl
  | some method =>
    dsimp only
    rw [counted, ← arguments_map_trim, joined, arguments_map_trim]

theorem blockHead_of_spelled {word gap after : Text} (keyword : word = Keyword.branch ∨ word = Keyword.loop)
    (left : ∀ c ∈ gap, isBlank c = true) (last : ∀ c ∈ after, isBlank c = true) (t : Text) :
    ofLine (word ++ (gap ++ '(' :: t ++ ')' :: after ++ ['{'])) = some (.blockHead t.trim) := by
  have raw : isRawName word = true := by rcases keyword with rfl | rfl <;> rfl
  obtain ⟨rest, spelled, bracketed, stops⟩ := brackets_spelled left last t '{'
  have trimmed : trim (word ++ (rest ++ ['{'])) = word ++ (rest ++ ['{']) := trim_of_name raw rfl rest
  rw [spelled, ofLine_eq_some_iff, trimmed]
  change blockHead? (word ++ (rest ++ ['{'])) = some t.trim
  generalize rest ++ ['{'] = behind at bracketed stops trimmed
  have here : afterWord? (word ++ behind) word = some behind := afterWord?_eq_some_iff.mpr ⟨rfl, stops⟩
  have found : (afterWord? (word ++ behind) Keyword.branch).or (afterWord? (word ++ behind) Keyword.loop) = some behind := by
    rcases keyword with rfl | rfl
    · rw [here, Option.some_or]
    · have unbranched : afterWord? (Keyword.loop ++ behind) Keyword.branch = none := rfl
      rw [here, unbranched, Option.none_or]
  rw [blockHead?, trimmed, found]
  simp [bracketed]

private theorem slot_assign {scopes : Scopes} {name : Text} {target : Binding} (found : scopes.lookup name = some target)
    (stored : Option Text) : ∃ height, scopes.Resolves name height target ∧ ∀ place other,
      (scopes.assign name stored).slot place other =
        if place = height ∧ other = name then some (target.assigned stored) else scopes.slot place other := by
  obtain ⟨height, resolves⟩ := Scopes.lookup_eq_some_iff.mp found
  obtain ⟨written, kept⟩ := Scopes.slot_assign_of_resolves stored resolves
  refine ⟨height, resolves, fun place other => ?_⟩
  by_cases same : other = name
  · subst same
    by_cases here : place = height
    · rw [if_pos ⟨here, rfl⟩, here, written]
    · rw [if_neg fun both => here both.1, kept place here]
  · rw [if_neg fun both => same both.2, Scopes.slot_assign_of_ne stored same]

/-- Every statement is read from the lines it can be written on, and its check does what it says.
A declaration and an assignment work on their fragments in order: a declaration binds the name in
the current scope, and an assignment changes the one variable that the name stands for. A call
gives its values to the method of its name, and a condition is handed on as it is. -/
theorem statements_are_read_back :
    (∀ isFinal ty (fragments : List Fragment) texts, fragments ≠ [] → (∀ fragment ∈ fragments, fragment.IsProper) →
      List.Forall₂ Fragment.Spelled fragments texts →
        ofLine (front isFinal ty ++ [','].intercalate texts ++ [';']) = some .declaration ∧
        Check.variableLine (front isFinal ty ++ [','].intercalate texts ++ [';']) =
          fragments.forM fun fragment => step (fragment.declared isFinal ty)) ∧
    (∀ (items : List (Text × Text)) texts, items ≠ [] → (∀ item ∈ items, Fragment.IsProper ⟨item.1, some item.2⟩) →
      List.Forall₂ (fun item => Fragment.Spelled ⟨item.1, some item.2⟩) items texts →
      (∀ item ∈ items.head?, item.2.head? ≠ some '=') →
        ofLine ([','].intercalate texts ++ [';']) = some .assignment ∧
        Check.variableLine ([','].intercalate texts ++ [';']) =
          items.forM fun item => step (Fragment.assigned item.1 item.2)) ∧
    (∀ (scopes : Scopes) name target stored, scopes.lookup name = some target →
      ∃ height, scopes.Resolves name height target ∧ ∀ place other, (scopes.assign name stored).slot place other =
        if place = height ∧ other = name then some (target.assigned stored) else scopes.slot place other) ∧
    (∀ name gap after (given : List Text), isIdentifier name = true → (∀ c ∈ gap, isBlank c = true) →
      (∀ c ∈ after, isBlank c = true) → (∀ value ∈ given, value.IsItem) →
        ∃ t, ofLine (name ++ (gap ++ '(' :: [','].intercalate given ++ ')' :: after ++ [';'])) = some (.call name t) ∧
          ∀ methods scopes, Check.call methods scopes name t =
            match methods.get? name with
            | none => .error (.unknownMethod name)
            | some method =>
              if given.length = method.parameters.length then Check.arguments scopes given method.parameters
              else .error (.argumentCount name method.parameters.length given.length)) ∧
    ∀ word gap after (t : Text), word = Keyword.branch ∨ word = Keyword.loop → (∀ c ∈ gap, isBlank c = true) →
      (∀ c ∈ after, isBlank c = true) →
        ofLine (word ++ (gap ++ '(' :: t ++ ')' :: after ++ ['{'])) = some (.blockHead t.trim) := by
  refine ⟨?_, ?_, ?_, ?_, ?_⟩
  · exact fun isFinal ty _ _ nonempty proper spelled => declaration_of_spelled isFinal ty nonempty proper spelled
  · exact fun _ _ nonempty proper spelled unlike => assignment_of_spelled nonempty proper spelled unlike
  · exact fun _ _ _ stored found => slot_assign found stored
  · exact fun _ _ _ _ named left last items => call_of_spelled named left last items
  · exact fun _ _ _ t keyword left last => blockHead_of_spelled keyword left last t

/-- The comma between quotes is a part of the first value. -/
theorem quoted_comma_is_read_back :
    ofLine "String s = \"a, b\" , t=s ;".toList = some .declaration ∧
      Check.variableLine "String s = \"a, b\" , t=s ;".toList =
        [⟨['s'], some "\"a, b\"".toList⟩, ⟨['t'], some ['s']⟩].forM fun fragment =>
          step (Fragment.declared false .string fragment) := by
  have space : ∀ c ∈ [' '], isBlank c = true := by simp [isBlank_space]
  have none : ∀ c ∈ ([] : Text), isBlank c = true := nofun
  have quoted : IsItem "\"a, b\"".toList := ⟨by decide, by decide, by decide⟩
  have named : IsItem ['s'] := ⟨by decide, by decide, by decide⟩
  have first : Fragment.Spelled ⟨['s'], some "\"a, b\"".toList⟩ "s = \"a, b\" ".toList :=
    .valued none space space space
  have second : Fragment.Spelled ⟨['t'], some ['s']⟩ " t=s ".toList := .valued space none none space
  refine statements_are_read_back.1 false .string _ _ (by simp) ?_ (.cons first (.cons second .nil))
  intro fragment member
  rcases List.mem_pair.mp member with rfl | rfl
  · exact ⟨by decide, fun value given => by cases given; exact quoted⟩
  · exact ⟨by decide, fun value given => by cases given; exact named⟩

/-- The second variable takes over what the first was given. -/
example : ending (Check.variableLine "String s = \"a, b\" , t=s ;".toList) {} =
    (.ok (), ⟨[⟨['t'], .string, false, true, some "\"a, b\"".toList⟩,
      ⟨['s'], .string, false, true, some "\"a, b\"".toList⟩], []⟩) := by
  decide +kernel

end SpelledStatements
end Linewise

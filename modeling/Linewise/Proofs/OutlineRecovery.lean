import Linewise.Proofs.FailFast

/-! An outline may go on to be built after a line that it has not taken. A line that stood in a
wrong place is forgotten. A method that could not be made is not: its brace was the last line that
could have ended it, so it stays open without a header, and whatever follows goes into it.

A builder keeps the parts of an open method together. Where the parts are kept side by side
instead, an open method leaves none of them behind, and so both builders come to the same. -/

namespace Linewise

namespace Run

variable {σ τ α : Type}

/-- The state in the end, where every step starts from what the last one left, at a fault or not. -/
def goOn (each : α → Run σ Unit) (items : List α) (state : σ) : σ :=
  items.foldl (fun state item => (ending (each item) state).2) state

theorem goOn_cons (each : α → Run σ Unit) (item : α) (items : List α) (state : σ) :
    goOn each (item :: items) state = goOn each items (ending (each item) state).2 :=
  rfl

/-- What every step keeps, faults included, is kept for good. -/
theorem goOn_induction {Holds : σ → Prop} {each : α → Run σ Unit}
    (keeps : ∀ item state, Holds state → Holds (ending (each item) state).2) (items : List α) {state : σ}
    (holds : Holds state) : Holds (goOn each items state) := by
  induction items generalizing state with
  | nil => exact holds
  | cons item items ih => exact ih (keeps item state holds)

/-- Steps that come to the same under a view do so in a row. -/
theorem goOn_map {view : σ → τ} {each : α → Run σ Unit} {other : α → Run τ Unit}
    (same : ∀ item state, (ending (other item) (view state)).2 = view (ending (each item) state).2)
    (items : List α) (state : σ) : goOn other items (view state) = view (goOn each items state) := by
  induction items generalizing state with
  | nil => rfl
  | cons item items ih => rw [goOn_cons, goOn_cons, same, ih]

end Run

namespace Outline

/-- A builder that keeps its parts side by side. Only the way in which it takes lines relates them. -/
structure FlatBuilder where
  inMethod : Bool := false
  depth : Nat := 0
  header : Option Text := none
  body : List Text := []
  outline : Outline := {}
  deriving DecidableEq, Repr

namespace FlatBuilder

def close : Run FlatBuilder Unit := do
  let builder ← Run.current
  Run.replace { builder with header := none, body := [] }
  let method ← Run.test fun _ => Method.ofHeader (builder.header.getD []) builder.body
  Run.tell (.collected method.name method.parameters.length method.body.length)
  let methods ← Run.test fun _ => builder.outline.methods.register method
  Run.replace
    { builder with inMethod := false, header := none, body := [], outline := { builder.outline with methods := methods } }

/-- A line that is neither in a method nor above all blocks would get lost here. -/
def place (line : Text) (statement : Statement) : Run FlatBuilder Unit := do
  let builder ← Run.current
  match statement with
  | .methodHead _ _ =>
    if builder.inMethod then Run.raise (.nestedMethod line)
    else Run.replace { builder with inMethod := true, depth := 1, header := some line, body := [] }
  | .blockHead _ =>
    if builder.inMethod then
      Run.replace { builder with depth := builder.depth + 1, body := builder.body ++ [line] }
    else Run.raise (.blockOutsideMethod line)
  | .blockEnd =>
    if builder.depth = 0 then Run.raise (.unmatchedEnd line)
    else do
      Run.replace
        { builder with
          depth := builder.depth - 1
          body := if builder.inMethod then builder.body ++ [line] else builder.body }
      if builder.depth = 1 ∧ builder.inMethod then close else pure ()
  | .declaration | .assignment | .call _ _ | .ret =>
    if builder.inMethod then Run.replace { builder with body := builder.body ++ [line] }
    else if builder.depth = 0 ∧ ¬ line.trim.isEmpty then
      Run.replace { builder with outline.globals := builder.outline.globals ++ [line] }
    else pure ()

def feed (line : Text) : Run FlatBuilder Unit := do
  let statement ← Run.read line
  place line statement

end FlatBuilder

namespace Builder
open Run

variable {line : Text} {statement : Statement} {builder after : Builder} {fault : Fault} {outline : Outline}

def flat (builder : Builder) : FlatBuilder :=
  match builder.method? with
  | none => { outline := builder.outline }
  | some method => ⟨true, method.depth, method.header, method.body, builder.outline⟩

theorem not_blank_of_ofLine (known : Statement.ofLine line = some statement) : line.trim.isEmpty = false := by
  cases trimmed : line.trim with
  | cons => rfl
  | nil =>
    rw [Statement.ofLine, trimmed] at known
    cases known

def flatEnding (step : Run Builder Unit) (builder : Builder) : Except Fault Unit × FlatBuilder :=
  ((ending step builder).1, (ending step builder).2.flat)

theorem ending_flat_close (outline : Outline) (header : Option Text) (body : List Text) (before : Option OpenMethod) :
    ending FlatBuilder.close ⟨true, 0, header, body, outline⟩ =
      flatEnding (close ⟨header, 1, body⟩) ⟨outline, before⟩ := by
  simp only [flatEnding, FlatBuilder.close, close, ending_bind, ending_current, ending_replace, ending_test, ending_tell]
  cases made : Method.ofHeader (header.getD []) body with
  | error fault => rfl
  | ok method =>
    cases registered : outline.methods.register method with
    | error fault => simp only [registered]; rfl
    | ok methods => simp only [registered]; rfl

/-- Outside of a method nothing is open, so the branch that would lose a line is never taken. -/
theorem ending_flat_place (known : Statement.ofLine line = some statement) (builder : Builder) :
    ending (FlatBuilder.place line statement) builder.flat = flatEnding (place line statement) builder := by
  have written := not_blank_of_ofLine known
  rcases builder with ⟨outline, _ | ⟨header, depth, body⟩⟩
  · cases statement with
    | methodHead _ _ | blockHead _ | blockEnd => rfl
    | declaration | assignment | call _ _ | ret =>
      simp [flatEnding, FlatBuilder.place, place, ending_bind, flat, written]
  · cases statement with
    | methodHead _ _ | blockHead _ | declaration | assignment | call _ _ | ret => rfl
    | blockEnd =>
      rcases depth with _ | _ | depth
      · rfl
      · exact ending_flat_close outline header (body ++ [line]) _
      · simp [flatEnding, FlatBuilder.place, place, ending_bind, flat]

theorem ending_flat_feed (line : Text) (builder : Builder) :
    ending (FlatBuilder.feed line) builder.flat = flatEnding (feed line) builder := by
  cases known : Statement.ofLine line with
  | none =>
    rw [flatEnding, feed, FlatBuilder.feed, ending_bind_of_error (ending_read_of_none known _),
      ending_bind_of_error (ending_read_of_none known _)]
  | some statement =>
    rw [FlatBuilder.feed, ending_bind_of_ok (ending_read_of_some known _), ending_flat_place known, flatEnding,
      flatEnding, ending_feed_of_some known]

theorem goOn_flat (lines : List Text) (builder : Builder) :
    goOn FlatBuilder.feed lines builder.flat = (goOn feed lines builder).flat := by
  apply goOn_map
  intro line builder
  rw [ending_flat_feed, flatEnding]

/-- Where no method is open, no part of one is left over. -/
theorem flat_of_outside (outside : builder.flat.inMethod = false) : builder.flat = { outline := builder.outline } := by
  rcases builder with ⟨outline, _ | method⟩
  · rfl
  · cases outside

/-- Nothing can be added any more: a method is open that has no header. -/
inductive Stuck (outline : Outline) : Builder → Prop where
  | headless {depth body} : Stuck outline ⟨outline, some ⟨none, depth, body⟩⟩

theorem Stuck.outline_eq (stuck : Stuck outline builder) : builder.outline = outline := by
  cases stuck
  rfl

theorem Stuck.takes (stuck : Stuck outline builder) (taken : Takes line builder statement after) :
    Stuck outline after := by
  cases stuck with
  | headless =>
    cases taken with
    | inner _ _ _ => exact .headless
    | last made _ => cases made

theorem Stuck.refuses (stuck : Stuck outline builder) (refused : Refuses line builder fault after) :
    Stuck outline after := by
  rcases refused.cases_on_fault with ⟨-, rfl⟩ | ⟨-, rfl⟩
  · exact stuck
  · cases stuck
    exact .headless

theorem Stuck.feed (stuck : Stuck outline builder) (line : Text) : Stuck outline (ending (feed line) builder).2 := by
  rcases fed : ending (Builder.feed line) builder with ⟨_ | _, after⟩
  · exact stuck.refuses (refuses_of_feed fed)
  · obtain ⟨_, _, taken⟩ := ending_feed_eq_ok_iff.mp fed
    exact stuck.takes taken

theorem Stuck.goOn (stuck : Stuck outline builder) (lines : List Text) : Stuck outline (goOn Builder.feed lines builder) :=
  goOn_induction (fun line _ stuck => stuck.feed line) lines stuck

theorem Stuck.nested {name parameters : Text} (stuck : Stuck outline builder)
    (known : Statement.ofLine line = some (.methodHead name parameters)) :
    ending (Builder.feed line) builder = (.error (.nestedMethod line), builder) := by
  cases stuck
  rw [ending_feed_of_some known]
  rfl

/-- The last brace of a method finds no header to read. -/
theorem Stuck.malformed (stuck : Stuck outline builder) (known : Statement.ofLine line = some .blockEnd)
    (last : builder.openBlocks = 1) : (ending (Builder.feed line) builder).1 = .error (.malformedHeader []) := by
  cases stuck with
  | headless =>
    cases last
    rw [ending_feed_of_some known]
    rfl

theorem Stuck.finish_eq (stuck : Stuck outline builder) :
    builder.finish = if builder.openBlocks = 0 then .ok outline else .error (.unclosedBlock none) := by
  cases stuck
  rfl

/-- What fails over a method, and not over the place of a line, ends all building. -/
theorem stuck_of_fault (fed : ending (feed line) builder = (.error fault, after)) (elsewhere : ¬ fault.OfPlace) :
    fault.OfMaking ∧ Stuck builder.outline after := by
  rcases (refuses_of_feed fed).cases_on_fault with ⟨ofPlace, -⟩ | ⟨making, rfl⟩
  · exact absurd ofPlace elsewhere
  · exact ⟨making, .headless⟩

theorem eq_of_ofPlace (fed : ending (feed line) builder = (.error fault, after)) (ofPlace : fault.OfPlace) :
    after = builder := by
  rcases (refuses_of_feed fed).cases_on_fault with ⟨-, same⟩ | ⟨making, -⟩
  · exact same
  · exact absurd ofPlace making.not_ofPlace

/-- Lines may be fed on after every fault. A line in a wrong place changes nothing. A line that is
taken is kept, and outside of a method nothing is left over, also where the parts of a builder are
kept apart. A method that cannot be made is the last thing that happens to an outline. -/
theorem outline_after_faults (lines : List Text) :
    let builder := goOn feed lines {}
    let flat := goOn FlatBuilder.feed lines {}
    (flat = builder.flat ∧ ∀ line, ending (FlatBuilder.feed line) flat = flatEnding (feed line) builder) ∧
    (∀ line fault after, ending (feed line) builder = (.error fault, after) → fault.OfPlace → after = builder) ∧
    (flat.inMethod = false → flat.depth = 0 ∧ flat.header = none ∧ flat.body = []) ∧
    (∀ line after, ending (feed line) builder = (.ok (), after) →
      ∃ statement, Statement.ofLine line = some statement ∧ Takes line builder statement after) ∧
    ∀ line fault after, ending (feed line) builder = (.error fault, after) → ¬ fault.OfPlace →
      fault.OfMaking ∧ ∀ more,
        let last := goOn feed more after
        last.outline = builder.outline ∧
        (∀ header name parameters, Statement.ofLine header = some (.methodHead name parameters) →
          ending (feed header) last = (.error (.nestedMethod header), last)) ∧
        (∀ brace, Statement.ofLine brace = some .blockEnd → last.openBlocks = 1 →
          (ending (feed brace) last).1 = .error (.malformedHeader [])) ∧
        last.finish = if last.openBlocks = 0 then .ok builder.outline else .error (.unclosedBlock none) := by
  intro builder flat
  have laid : flat = builder.flat := goOn_flat lines {}
  refine ⟨⟨laid, ?_⟩, fun _ _ _ => eq_of_ofPlace, ?_, fun _ _ => ending_feed_eq_ok_iff.mp, ?_⟩
  · intro line
    rw [laid, ending_flat_feed]
  · intro outside
    rw [laid] at outside ⊢
    rw [flat_of_outside outside]
    exact ⟨rfl, rfl, rfl⟩
  · intro line fault after fed elsewhere
    obtain ⟨making, stuck⟩ := stuck_of_fault fed elsewhere
    refine ⟨making, ?_⟩
    intro more last
    have stays : Stuck builder.outline last := stuck.goOn more
    exact ⟨stays.outline_eq, fun _ _ _ => stays.nested, fun _ => stays.malformed, stays.finish_eq⟩

end Builder
end Outline
end Linewise

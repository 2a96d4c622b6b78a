import Linewise.Proofs.MethodRegistry
import Linewise.Proofs.OutlineFeed

/-! A program has an outline exactly where it can be cut into lines that stand by themselves
and whole methods. The cut is unique, and the outline is read off it, so that building an
outline loses no line, moves none and changes none. -/

namespace Linewise

inductive Segment
  | global (line : Text)
  | method (header : Text) (body : List Text)
  deriving DecidableEq, Repr

namespace Segment

def lines : Segment → List Text
  | global line => [line]
  | method header body => header :: body

def global? : Segment → Option Text
  | global line => some line
  | method _ _ => none

def body? : Segment → Option (List Text)
  | global _ => none
  | method _ body => some body

def method? : Segment → Option Method
  | global _ => none
  | method header body =>
    match Method.ofHeader header body with
    | .error _ => none
    | .ok made => some made

inductive Valid : Segment → Prop where
  | global {line statement} (known : Statement.ofLine line = some statement)
      (simple : statement.isSimple = true) : Valid (.global line)
  | method {header name parameters body made}
      (head : Statement.ofLine header = some (.methodHead name parameters))
      (closes : ClosesFrom 1 body) (made : Method.ofHeader header body = .ok made) :
      Valid (.method header body)

def linesOf (cut : List Segment) : List Text :=
  cut.flatMap lines

def globalsOf (cut : List Segment) : List Text :=
  cut.filterMap global?

def methodsOf (cut : List Segment) : List Method :=
  cut.filterMap method?

def bodiesOf (cut : List Segment) : List (List Text) :=
  cut.filterMap body?

@[simp] theorem global?_global (line : Text) : (global line).global? = some line :=
  rfl

@[simp] theorem global?_method (header : Text) (body : List Text) : (method header body).global? = none :=
  rfl

@[simp] theorem method?_global (line : Text) : (global line).method? = none :=
  rfl

theorem method?_of_made {header : Text} {body : List Text} {made : Method}
    (makes : Method.ofHeader header body = .ok made) : (method header body).method? = some made := by
  simp [method?, makes]

end Segment

/-- A header makes a method where it names one and all of its parameters can be read. -/
theorem Method.ofHeader_eq_ok_iff {header : Text} {body : List Text} {made : Method} :
    Method.ofHeader header body = .ok made ↔ made.body = body ∧ isMethodName made.name = true ∧
      ∃ t, Statement.methodHead? header = some (made.name, t) ∧ Method.parametersOf made.name t = .ok made.parameters := by
  unfold Method.ofHeader
  cases head : Statement.methodHead? header with
  | none => simp
  | some pair =>
    obtain ⟨name, t⟩ := pair
    cases named : isMethodName name with
    | false =>
      simp only [named, Bool.false_eq_true, if_false, reduceCtorEq, false_iff]
      rintro ⟨-, proper, t, same, -⟩
      cases same
      rw [named] at proper
      cases proper
    | true =>
      cases read : Method.parametersOf name t with
      | error fault =>
        simp only [named, read, if_true, reduceCtorEq, false_iff]
        rintro ⟨-, -, t, same, again⟩
        cases same
        cases read.symm.trans again
      | ok parameters =>
        simp only [named, read, if_true, Except.ok.injEq]
        constructor
        · rintro rfl
          exact ⟨rfl, named, t, rfl, read⟩
        · rintro ⟨rfl, -, t, same, again⟩
          cases same
          cases read.symm.trans again
          rfl

open Segment

structure IsCut (lines : List Text) (cut : List Segment) : Prop where
  whole : linesOf cut = lines
  valid : ∀ segment ∈ cut, segment.Valid
  distinct : ((methodsOf cut).map Method.name).Nodup

/-- Two cuts of the same global lines in one order and the same methods in one order. -/
def SameOrder (first second : List Segment) : Prop :=
  first.filter (·.global?.isSome) = second.filter (·.global?.isSome) ∧
    first.filter (·.body?.isSome) = second.filter (·.body?.isSome)

namespace OutlineSegments
open Outline Outline.Builder Run

def Completes (lines : List Text) (builder : Builder) (outline : Outline) : Prop :=
  ∃ after, ending (lines.forM feed) builder = (.ok (), after) ∧ after.finish = .ok outline

def between (globals : List Text) (methods : List Method) : Builder :=
  ⟨⟨globals, .ofMethods methods⟩, none⟩

def inside (globals : List Text) (methods : List Method) (header : Text) (depth : Nat)
    (body : List Text) : Builder :=
  ⟨⟨globals, .ofMethods methods⟩, some ⟨some header, depth, body⟩⟩

theorem ofLines_eq_ok_iff_completes {lines : List Text} {outline : Outline} :
    Outline.ofLines lines = .ok outline ↔ Completes lines (between [] []) outline := by
  unfold Outline.ofLines Outline.build Completes
  change ((lines.forM feed >>= fun _ => test finish).ending (between [] [])).1 = .ok outline ↔ _
  rw [ending_bind]
  rcases ending (lines.forM feed) (between [] []) with ⟨_ | _, after⟩
  · simp
  · simp

theorem completes_nil_iff {builder : Builder} {outline : Outline} :
    Completes [] builder outline ↔ builder.finish = .ok outline := by
  constructor
  · intro ⟨after, fed, finished⟩
    cases fed
    exact finished
  · intro finished
    exact ⟨builder, rfl, finished⟩

theorem completes_cons_iff {line : Text} {lines : List Text} {builder : Builder} {outline : Outline} :
    Completes (line :: lines) builder outline ↔
      ∃ statement middle, Statement.ofLine line = some statement ∧
        Takes line builder statement middle ∧ Completes lines middle outline := by
  unfold Completes
  constructor
  · intro ⟨after, fed, finished⟩
    obtain ⟨middle, first, rest⟩ := ending_forM_cons_eq_ok_iff.mp fed
    obtain ⟨statement, known, taken⟩ := ending_feed_eq_ok_iff.mp first
    exact ⟨statement, middle, known, taken, after, rest, finished⟩
  · intro ⟨statement, middle, known, taken, after, rest, finished⟩
    have first := ending_feed_eq_ok_iff.mpr ⟨statement, known, taken⟩
    exact ⟨after, ending_forM_cons_eq_ok_iff.mpr ⟨middle, first, rest⟩, finished⟩

theorem finish_between (globals : List Text) (methods : List Method) (outline : Outline) :
    (between globals methods).finish = .ok outline ↔ outline = ⟨globals, .ofMethods methods⟩ := by
  simp [between, finish, eq_comm]

theorem finish_inside {globals : List Text} {methods : List Method} {header : Text} {depth : Nat}
    {body : List Text} (positive : 1 ≤ depth) (outline : Outline) :
    (inside globals methods header depth body).finish ≠ .ok outline := by
  have running : depth ≠ 0 := by omega
  simp [inside, finish, running]

private theorem body_of_completes {globals : List Text} {methods : List Method} {header : Text}
    {depth : Nat} {body lines : List Text} {outline : Outline} (positive : 1 ≤ depth)
    (completes : Completes lines (inside globals methods header depth body) outline) :
    ∃ rest after made, lines = rest ++ after ∧ ClosesFrom depth rest ∧
      Method.ofHeader header (body ++ rest) = .ok made ∧ made.name ∉ methods.map Method.name ∧
      Completes after (between globals (methods ++ [made])) outline := by
  induction lines generalizing depth body with
  | nil => exact absurd (completes_nil_iff.mp completes) (finish_inside positive outline)
  | cons line lines ih =>
    obtain ⟨statement, middle, known, taken, completes⟩ := completes_cons_iff.mp completes
    cases taken with
    | @inner _ _ _ next inner counted within =>
      have running : 1 ≤ next := by
        cases statement with
        | blockEnd => exact Nat.one_le_iff_ne_zero.mpr (within rfl)
        | declaration | assignment | call _ _ | blockHead _ | ret | methodHead _ _ =>
          simp only [Statement.weight] at counted
          omega
      obtain ⟨rest, after, made, rfl, closes, makes, fresh, completes⟩ := ih running completes
      refine ⟨line :: rest, after, made, rfl, ?_, ?_, fresh, completes⟩
      · refine ClosesFrom.cons_iff.mpr ⟨by omega, ⟨statement, known, inner⟩, ?_⟩
        rwa [weightOf_of_ofLine known, ← counted]
      · simpa using makes
    | last makes registered =>
      obtain ⟨fresh, rfl⟩ := MethodTable.register_ofMethods_eq_ok_iff.mp registered
      refine ⟨[line], lines, _, rfl, ?_, makes, fresh, completes⟩
      refine ClosesFrom.cons_iff.mpr ⟨by simp, ⟨.blockEnd, known, rfl⟩, ClosesFrom.nil_iff.mpr ?_⟩
      simp [weightOf_of_ofLine known, Statement.weight]

private theorem completes_of_body {globals : List Text} {methods : List Method} {header : Text}
    {depth : Nat} {body rest after : List Text} {outline : Outline} {made : Method}
    (positive : 1 ≤ depth) (closes : ClosesFrom depth rest)
    (makes : Method.ofHeader header (body ++ rest) = .ok made)
    (fresh : made.name ∉ methods.map Method.name)
    (completes : Completes after (between globals (methods ++ [made])) outline) :
    Completes (rest ++ after) (inside globals methods header depth body) outline := by
  induction depth, rest, positive, closes using ClosesFrom.induct generalizing body with
  | last line closes known =>
    have registered := MethodTable.register_ofMethods_eq_ok_iff.mpr ⟨fresh, rfl⟩
    exact completes_cons_iff.mpr ⟨_, _, known, .last makes registered, completes⟩
  | inner depth next line rest statement positive closes running later known within counted ih =>
    rw [List.cons_append, completes_cons_iff]
    refine ⟨_, _, known, .inner within counted (fun _ => by omega), ih ?_⟩
    simpa using makes

structure Fills (globals : List Text) (methods : List Method) (cut : List Segment) (outline : Outline) :
    Prop where
  valid : ∀ segment ∈ cut, segment.Valid
  distinct : ((methods ++ methodsOf cut).map Method.name).Nodup
  same : outline = ⟨globals ++ globalsOf cut, .ofMethods (methods ++ methodsOf cut)⟩

theorem fills_nil_iff {globals : List Text} {methods : List Method} {outline : Outline} :
    Fills globals methods [] outline ↔
      (methods.map Method.name).Nodup ∧ outline = ⟨globals, .ofMethods methods⟩ := by
  constructor
  · intro filled
    exact ⟨by simpa [methodsOf] using filled.distinct, by simpa [globalsOf, methodsOf] using filled.same⟩
  · intro ⟨distinct, same⟩
    exact ⟨by simp, by simpa [methodsOf] using distinct, by simpa [globalsOf, methodsOf] using same⟩

theorem fills_cons_iff {globals : List Text} {methods : List Method} {segment : Segment}
    {cut : List Segment} {outline : Outline} :
    Fills globals methods (segment :: cut) outline ↔ segment.Valid ∧
      Fills (globals ++ segment.global?.toList) (methods ++ segment.method?.toList) cut outline := by
  have lines : globals ++ globalsOf (segment :: cut) =
      globals ++ segment.global?.toList ++ globalsOf cut := by
    cases known : segment.global? <;> simp [globalsOf, known]
  have made : methods ++ methodsOf (segment :: cut) = methods ++ segment.method?.toList ++ methodsOf cut := by
    cases known : segment.method? <;> simp [methodsOf, known]
  constructor
  · intro filled
    refine ⟨filled.valid segment (by simp), fun other member => filled.valid other (by simp [member]), ?_, ?_⟩
    · rw [← made]
      exact filled.distinct
    · rw [← lines, ← made]
      exact filled.same
  · intro ⟨valid, filled⟩
    refine ⟨?_, by rw [made]; exact filled.distinct, by rw [lines, made]; exact filled.same⟩
    intro other member
    rcases List.mem_cons.mp member with rfl | member
    · exact valid
    · exact filled.valid other member

theorem fresh_of_nodup {methods : List Method} {made : Method} {others : List Method}
    (distinct : ((methods ++ [made] ++ others).map Method.name).Nodup) :
    made.name ∉ methods.map Method.name := by
  intro taken
  rw [List.map_append, List.map_append, List.nodup_append] at distinct
  have apart := (List.nodup_append.mp distinct.1).2.2
  exact apart made.name taken made.name (by simp) rfl

private theorem nodup_snoc {methods : List Method} {made : Method}
    (distinct : (methods.map Method.name).Nodup) (fresh : made.name ∉ methods.map Method.name) :
    ((methods ++ [made]).map Method.name).Nodup := by
  rw [List.map_append, List.nodup_append]
  refine ⟨distinct, by simp, ?_⟩
  intro name member other single same
  rw [List.map_singleton, List.mem_singleton] at single
  exact fresh (single ▸ same ▸ member)

private theorem fills_of_completes (globals : List Text) (methods : List Method) (lines : List Text)
    {outline : Outline} (distinct : (methods.map Method.name).Nodup)
    (completes : Completes lines (between globals methods) outline) :
    ∃ cut, linesOf cut = lines ∧ Fills globals methods cut outline := by
  match lines with
  | [] =>
    have finished := (finish_between globals methods outline).mp (completes_nil_iff.mp completes)
    exact ⟨[], rfl, fills_nil_iff.mpr ⟨distinct, finished⟩⟩
  | line :: lines =>
    obtain ⟨statement, middle, known, taken, completes⟩ := completes_cons_iff.mp completes
    cases taken with
    | global simple =>
      obtain ⟨cut, rfl, filled⟩ := fills_of_completes (globals ++ [line]) methods lines distinct completes
      refine ⟨.global line :: cut, rfl, fills_cons_iff.mpr ⟨.global known simple, ?_⟩⟩
      simpa using filled
    | head =>
      obtain ⟨body, after, made, cutAt, closes, makes, fresh, completes⟩ :=
        body_of_completes (Nat.le_refl 1) completes
      rw [List.nil_append] at makes
      obtain ⟨cut, rfl, filled⟩ :=
        fills_of_completes globals (methods ++ [made]) after (nodup_snoc distinct fresh) completes
      refine ⟨.method line body :: cut, by rw [cutAt]; rfl, fills_cons_iff.mpr ⟨.method known closes makes, ?_⟩⟩
      simpa [method?_of_made makes] using filled
termination_by lines.length
decreasing_by
  · simp
  · simp only [cutAt, List.length_cons, List.length_append]
    omega

private theorem completes_of_fills (cut : List Segment) {globals : List Text} {methods : List Method}
    {outline : Outline} (filled : Fills globals methods cut outline) :
    Completes (linesOf cut) (between globals methods) outline := by
  induction cut generalizing globals methods with
  | nil =>
    obtain ⟨-, same⟩ := fills_nil_iff.mp filled
    exact completes_nil_iff.mpr ((finish_between globals methods outline).mpr same)
  | cons segment cut ih =>
    obtain ⟨valid, filled⟩ := fills_cons_iff.mp filled
    have rest := ih filled
    cases valid with
    | global known simple =>
      simp only [global?_global, method?_global, Option.toList, List.append_nil] at rest
      exact completes_cons_iff.mpr ⟨_, _, known, .global simple, rest⟩
    | method known closes makes =>
      simp only [global?_method, method?_of_made makes, Option.toList, List.append_nil] at rest filled
      have fresh := fresh_of_nodup filled.distinct
      exact completes_cons_iff.mpr
        ⟨_, _, known, .head, completes_of_body (Nat.le_refl 1) closes makes fresh rest⟩

/-- An outline exists exactly where a cut does, and it holds what the cut holds. -/
theorem ofLines_eq_ok_iff_cut {lines : List Text} {outline : Outline} :
    Outline.ofLines lines = .ok outline ↔
      ∃ cut, IsCut lines cut ∧ outline = ⟨globalsOf cut, .ofMethods (methodsOf cut)⟩ := by
  rw [ofLines_eq_ok_iff_completes]
  constructor
  · intro completes
    obtain ⟨cut, whole, filled⟩ := fills_of_completes [] [] lines (by simp) completes
    exact ⟨cut, ⟨whole, filled.valid, by simpa using filled.distinct⟩, by simpa using filled.same⟩
  · intro ⟨cut, ⟨whole, valid, distinct⟩, same⟩
    rw [← whole]
    exact completes_of_fills cut ⟨valid, by simpa using distinct, by simpa using same⟩

theorem body_of_ofHeader {header : Text} {body : List Text} {made : Method}
    (makes : Method.ofHeader header body = .ok made) : made.body = body :=
  (Method.ofHeader_eq_ok_iff.mp makes).1

theorem methodHead?_of_ofHeader {header : Text} {body : List Text} {made : Method}
    (makes : Method.ofHeader header body = .ok made) :
    ∃ name parameters, Statement.methodHead? header = some (name, parameters) := by
  obtain ⟨-, -, parameters, head, -⟩ := Method.ofHeader_eq_ok_iff.mp makes
  exact ⟨made.name, parameters, head⟩

theorem mem_globalsOf_iff {cut : List Segment} {line : Text} : line ∈ globalsOf cut ↔ .global line ∈ cut := by
  constructor
  · intro member
    obtain ⟨segment, inCut, found⟩ := List.mem_filterMap.mp member
    cases segment with
    | global other =>
      cases found
      exact inCut
    | method header body => cases found
  · exact fun inCut => List.mem_filterMap.mpr ⟨_, inCut, rfl⟩

/-- Every method of a cut was made of a header and of its body. -/
theorem exists_of_mem_methodsOf {lines : List Text} {cut : List Segment} {method : Method} (isCut : IsCut lines cut)
    (member : method ∈ methodsOf cut) :
    ∃ header, .method header method.body ∈ cut ∧ ClosesFrom 1 method.body ∧
      Method.ofHeader header method.body = .ok method := by
  obtain ⟨segment, inCut, made⟩ := List.mem_filterMap.mp member
  cases isCut.valid segment inCut with
  | global known simple => cases made
  | @method header _ _ _ _ head closes makes =>
    rw [method?_of_made makes] at made
    cases made
    cases body_of_ofHeader makes
    exact ⟨header, inCut, closes, makes⟩

/-- Every method of an outline was made of a body that closes its block. -/
theorem closes_of_mem {lines : List Text} {outline : Outline} {method : Method}
    (built : Outline.ofLines lines = .ok outline) (member : method ∈ outline.methods.methods) :
    ClosesFrom 1 method.body := by
  obtain ⟨cut, isCut, rfl⟩ := ofLines_eq_ok_iff_cut.mp built
  rw [MethodTable.methods_ofMethods] at member
  obtain ⟨_, _, closes, _⟩ := exists_of_mem_methodsOf isCut member
  exact closes

/-- The lines of an outline that stand outside of all methods are statements by themselves. -/
theorem simple_of_mem {lines : List Text} {outline : Outline} {line : Text}
    (built : Outline.ofLines lines = .ok outline) (member : line ∈ outline.globals) :
    ∃ statement, Statement.ofLine line = some statement ∧ statement.isSimple = true := by
  obtain ⟨cut, isCut, rfl⟩ := ofLines_eq_ok_iff_cut.mp built
  cases isCut.valid _ (mem_globalsOf_iff.mp member) with
  | global known simple => exact ⟨_, known, simple⟩

private theorem lines_ne_nil (segment : Segment) : segment.lines ≠ [] := by
  cases segment <;> simp [Segment.lines]

/-- A first line tells a method from a line by itself, and a body ends in one place only. -/
theorem eq_of_linesOf_eq {first second : List Segment} (valid : ∀ segment ∈ first, segment.Valid)
    (others : ∀ segment ∈ second, segment.Valid) (same : linesOf first = linesOf second) :
    first = second := by
  induction first generalizing second with
  | nil =>
    cases second with
    | nil => rfl
    | cons segment second => simp [linesOf, lines_ne_nil] at same
  | cons segment first ih =>
    cases second with
    | nil => simp [linesOf, lines_ne_nil] at same
    | cons other second =>
      have rest : linesOf first = linesOf second → first = second :=
        ih (fun segment member => valid segment (by simp [member]))
          (fun segment member => others segment (by simp [member]))
      have here := valid segment (by simp)
      have there := others other (by simp)
      simp only [linesOf, List.flatMap_cons] at same
      cases here with
      | global known simple =>
        cases there with
        | global _ _ =>
          obtain ⟨rfl, tails⟩ := List.cons.inj same
          rw [rest tails]
        | method head _ _ =>
          obtain ⟨rfl, -⟩ := List.cons.inj same
          rw [head] at known
          cases known
          cases simple
      | method head closes _ =>
        cases there with
        | global known simple =>
          obtain ⟨rfl, -⟩ := List.cons.inj same
          rw [head] at known
          cases known
          cases simple
        | method _ otherCloses _ =>
          obtain ⟨rfl, tails⟩ := List.cons.inj same
          obtain ⟨rfl, rests⟩ := closes.eq_of_append otherCloses tails
          rw [rest rests]

theorem filterMap_filter_isSome {α β : Type} (f : α → Option β) (keep : α → Bool)
    (kept : ∀ item, keep item = false → f item = none) (items : List α) :
    (items.filter keep).filterMap f = items.filterMap f := by
  rw [List.filterMap_filter]
  congr 1
  funext item
  cases known : keep item with
  | true => rfl
  | false => simp [kept item known]

theorem globalsOf_eq_of_sameOrder {first second : List Segment} (same : SameOrder first second) :
    globalsOf first = globalsOf second := by
  have kept (segment : Segment) (unkept : segment.global?.isSome = false) : segment.global? = none := by
    simpa using unkept
  unfold globalsOf
  rw [← filterMap_filter_isSome global? _ kept first, same.1, filterMap_filter_isSome global? _ kept]

theorem methodsOf_eq_of_sameOrder {first second : List Segment} (same : SameOrder first second) :
    methodsOf first = methodsOf second := by
  have kept (segment : Segment) (unkept : segment.body?.isSome = false) : segment.method? = none := by
    cases segment with
    | global line => rfl
    | method header body => cases unkept
  unfold methodsOf
  rw [← filterMap_filter_isSome Segment.method? _ kept first, same.2, filterMap_filter_isSome _ _ kept]

theorem mem_of_sameOrder {first second : List Segment} (same : SameOrder first second)
    {segment : Segment} (member : segment ∈ first) : segment ∈ second := by
  cases segment with
  | global line =>
    have kept : .global line ∈ first.filter (·.global?.isSome) := List.mem_filter.mpr ⟨member, rfl⟩
    rw [same.1] at kept
    exact (List.mem_filter.mp kept).1
  | method header body =>
    have kept : .method header body ∈ first.filter (·.body?.isSome) := List.mem_filter.mpr ⟨member, rfl⟩
    rw [same.2] at kept
    exact (List.mem_filter.mp kept).1

/-- Moving global lines between whole methods leaves a cut a cut. -/
theorem isCut_of_sameOrder {lines : List Text} {first second : List Segment} (isCut : IsCut lines second)
    (same : SameOrder first second) : IsCut (linesOf first) first := by
  refine ⟨rfl, fun segment member => isCut.valid segment (mem_of_sameOrder same member), ?_⟩
  rw [methodsOf_eq_of_sameOrder same]
  exact isCut.distinct

theorem bodies_methodsOf {cut : List Segment} (valid : ∀ segment ∈ cut, segment.Valid) :
    (methodsOf cut).map Method.body = bodiesOf cut := by
  induction cut with
  | nil => rfl
  | cons segment cut ih =>
    have rest := ih fun other member => valid other (by simp [member])
    have here := valid segment (by simp)
    unfold methodsOf bodiesOf at rest ⊢
    cases here with
    | global known simple => simpa [List.filterMap_cons, body?] using rest
    | method head closes makes =>
      simpa [List.filterMap_cons, body?, method?_of_made makes, body_of_ofHeader makes] using rest

/-- A program has an outline exactly where it can be cut into segments. The cut is unique,
the outline holds its lines and methods in their order, and where the global lines stand
between the methods does not matter. -/
theorem outline_iff_cut (lines : List Text) :
    ((∃ outline, Outline.ofLines lines = .ok outline) ↔ ∃ cut, IsCut lines cut) ∧
    ∀ outline cut, Outline.ofLines lines = .ok outline → IsCut lines cut →
      (∀ other, IsCut lines other → other = cut) ∧
      outline.globals = globalsOf cut ∧
      outline.methods.methods = methodsOf cut ∧
      outline.methods.methods.map Method.body = bodiesOf cut ∧
      ∀ other, SameOrder other cut → Outline.ofLines (linesOf other) = .ok outline := by
  constructor
  · constructor
    · intro ⟨outline, built⟩
      obtain ⟨cut, isCut, -⟩ := ofLines_eq_ok_iff_cut.mp built
      exact ⟨cut, isCut⟩
    · intro ⟨cut, isCut⟩
      exact ⟨_, ofLines_eq_ok_iff_cut.mpr ⟨cut, isCut, rfl⟩⟩
  · intro outline cut built isCut
    have unique : ∀ other, IsCut lines other → other = cut := by
      intro other otherCut
      exact eq_of_linesOf_eq otherCut.valid isCut.valid (otherCut.whole.trans isCut.whole.symm)
    obtain ⟨found, foundCut, rfl⟩ := ofLines_eq_ok_iff_cut.mp built
    obtain rfl := unique found foundCut
    refine ⟨unique, rfl, MethodTable.methods_ofMethods _, ?_, ?_⟩
    · rw [MethodTable.methods_ofMethods]
      exact bodies_methodsOf isCut.valid
    · intro other same
      refine ofLines_eq_ok_iff_cut.mpr ⟨other, isCut_of_sameOrder isCut same, ?_⟩
      rw [globalsOf_eq_of_sameOrder same, methodsOf_eq_of_sameOrder same]

end OutlineSegments
end Linewise

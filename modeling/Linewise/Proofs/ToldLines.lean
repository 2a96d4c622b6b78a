import Linewise.Proofs.AcceptedProgram
import Linewise.Proofs.BindingInvariants
import Linewise.Proofs.RunEvents

/-! What is told while a source is checked. Each line is read when the source is cut, and once
more when its segment is checked, unless it is a header. Where the source is accepted, the events
can be read off the cut. -/

namespace Linewise
open Run

def told (read : Text → Statement) (line : Text) : Event :=
  .read line.trim (read line)

namespace Method

def collected (method : Method) : Event :=
  .collected method.name method.parameters.length method.body.length

/-- What is told of a method that is accepted. A body that is one brace has no return to look for. -/
def events (read : Text → Statement) (method : Method) : List Event :=
  .validating method.name ::
    ((if method.body.map Text.trim = [['}']] then [.noReturnCheck method.name] else []) ++ method.body.map (told read))

end Method

def Segment.events (read : Text → Statement) (segment : Segment) : List Event :=
  segment.lines.map (told read) ++ segment.method?.toList.map Method.collected

def Scopes.names (scopes : Scopes) : List (List Text) :=
  scopes.frames.map fun scope => scope.map Binding.name

namespace Scopes

variable {allowed : Parameter → Prop} {outer scopes : Scopes} {count : Nat}

private theorem names_assignIn (name : Text) (value : Option Text) (frames : List Scope) :
    (assignIn name value frames).map (fun scope => scope.map Binding.name) =
      frames.map fun scope => scope.map Binding.name := by
  induction frames with
  | nil => rfl
  | cons scope frames ih =>
    rw [assignIn]
    split
    · rw [List.map_cons, List.map_cons, Scope.map_name_assign]
    · rw [List.map_cons, List.map_cons, ih]

private theorem names_of_climbs (climbs : outer.Climbs allowed count scopes) : scopes.names.drop count = outer.names := by
  induction climbs with
  | start => rfl
  | opened _ ih => exact ih
  | closed _ closed ih =>
    obtain ⟨scope, whole⟩ := close_eq_ok_iff.mp closed
    rw [names, whole] at ih
    exact ih
  | changed climbs change level ih =>
    cases change with
    | opened => exact absurd level (Nat.succ_ne_self _)
    | closed closed =>
      have lowered := depth_of_close closed
      omega
    | parameter known fresh | declared named fresh changeable stores => exact ih
    | assigned found changeable given stores =>
      rw [names, frames_assign, names_assignIn]
      exact ih

theorem length_global (scopes : Scopes) : scopes.global.length = (scopes.names.getLastD []).length := by
  rw [names, frames, List.map_cons, List.getLastD_cons, global, List.getLastD_eq_getLast?, List.getLastD_eq_getLast?,
    List.getLast?_map]
  cases scopes.enclosing.getLast? <;> simp

end Scopes

namespace ToldLines
open Outline Outline.Builder OutlineSegments Segment

variable {read : Text → Statement} {line header : Text} {lines globals body : List Text} {methods : List Method}
  {statement : Statement} {before middle after : Builder} {early late : List Event}

/-! The first pass. -/

private theorem events_close {closing : OpenMethod} {method : Method} {methods : MethodTable}
    (made : Method.ofHeader (closing.header.getD []) closing.body = .ok method)
    (registered : before.outline.methods.register method = .ok methods) :
    events (close closing) before = [method.collected] := by
  simp [close, events_bind, made, registered, Method.collected]

private theorem events_place (taken : Takes line before statement after) :
    events (place line statement) before =
      (after.outline.methods.methods.drop before.outline.methods.size).map Method.collected := by
  cases taken with
  | global simple =>
    rw [MethodTable.size, List.drop_length]
    cases statement <;> rfl
  | head =>
    rw [MethodTable.size, List.drop_length]
    rfl
  | @inner outline method statement depth inner counted within =>
    rw [MethodTable.size, List.drop_length]
    rcases method with ⟨header, reached, body⟩
    cases statement with
    | methodHead name parameters => cases inner
    | blockEnd =>
      simp only [Statement.weight] at counted
      obtain ⟨rest, rfl⟩ : ∃ rest, depth = rest + 1 := Nat.exists_eq_succ_of_ne_zero (within rfl)
      obtain rfl : reached = rest + 2 := by omega
      rfl
    | blockHead condition | declaration | assignment | call _ _ | ret => rfl
  | last made registered =>
    refine (events_close made registered).trans ?_
    obtain ⟨-, rfl⟩ := MethodTable.register_eq_ok_iff.mp registered
    rw [MethodTable.size, List.drop_left]
    rfl

/-- A line tells what it is, and then of the method that it has added, if it has added one. -/
theorem events_feed (known : Statement.ofLine line = some statement) (taken : Takes line before statement after) :
    events (feed line) before = .read line.trim statement ::
      (after.outline.methods.methods.drop before.outline.methods.size).map Method.collected := by
  rw [feed, events_bind_of_ok (ending_read_of_some known before), events_read_of_some known, events_place taken]
  rfl

structure Leads (lines : List Text) (before after : Builder) (events : List Event) : Prop where
  ends : ending (lines.forM feed) before = (.ok (), after)
  tells : Run.events (lines.forM feed) before = events

namespace Leads

theorem nil (builder : Builder) : Leads [] builder builder [] :=
  ⟨rfl, rfl⟩

theorem append {others : List Text} (first : Leads lines before middle early) (rest : Leads others middle after late) :
    Leads (lines ++ others) before after (early ++ late) := by
  have parts : (lines ++ others).forM feed = lines.forM feed >>= fun _ => others.forM feed := List.forM_append
  constructor
  · rw [parts, ending_bind_of_ok first.ends, rest.ends]
  · rw [parts, events_bind_of_ok first.ends, first.tells, rest.tells]

theorem cons (reads : Statement.ofLine line = some (read line)) (taken : Takes line before (read line) middle)
    (rest : Leads lines middle after late) :
    Leads (line :: lines) before after (told read line ::
      (middle.outline.methods.methods.drop before.outline.methods.size).map Method.collected ++ late) := by
  have fed := ending_feed_eq_ok_iff.mpr ⟨read line, reads, taken⟩
  constructor
  · exact ending_forM_cons_eq_ok_iff.mpr ⟨middle, fed, rest.ends⟩
  · exact (events_bind_of_ok fed).trans (by rw [events_feed reads taken, rest.tells]; rfl)

/-- Of a line that ends no method only the line is told. -/
theorem keep (reads : Statement.ofLine line = some (read line)) (taken : Takes line before (read line) middle)
    (same : middle.outline.methods = before.outline.methods) (rest : Leads lines middle after late) :
    Leads (line :: lines) before after (told read line :: late) := by
  have leads := cons reads taken rest
  rwa [same, MethodTable.size, List.drop_length] at leads

end Leads

/-- In a method nothing is told but the lines, until its last brace has made it. -/
private theorem leads_of_body {depth : Nat} {rest : List Text} {made : Method} (positive : 1 ≤ depth)
    (closes : ClosesFrom depth rest) (makes : Method.ofHeader header (body ++ rest) = .ok made)
    (fresh : made.name ∉ methods.map Method.name) (reads : ∀ line ∈ rest, Statement.ofLine line = some (read line)) :
    Leads rest (inside globals methods header depth body) (between globals (methods ++ [made]))
      (rest.map (told read) ++ [made.collected]) := by
  induction depth, rest, positive, closes using ClosesFrom.induct generalizing body with
  | last line closes known =>
    have here := reads line (by simp)
    have registered := MethodTable.register_ofMethods_eq_ok_iff.mpr ⟨fresh, rfl⟩
    have ends : Takes line (inside globals methods header 1 body) (read line) (between globals (methods ++ [made])) := by
      rw [Option.some.inj (here.symm.trans known)]
      exact .last makes registered
    have leads := Leads.cons here ends (.nil _)
    simpa [inside, between, MethodTable.size] using leads
  | inner depth next line rest statement positive closes running later known within counted ih =>
    obtain ⟨here, others⟩ := List.forall_mem_cons.mp reads
    obtain rfl : read line = statement := Option.some.inj (here.symm.trans known)
    have later : Method.ofHeader header (body ++ [line] ++ rest) = .ok made := by
      rwa [List.append_assoc]
    exact .keep here (.inner within counted fun _ => by omega) rfl (ih later others)

private theorem leads_of_segment {segment : Segment} (valid : segment.Valid)
    (fresh : ∀ made ∈ segment.method?, made.name ∉ methods.map Method.name)
    (reads : ∀ line ∈ segment.lines, Statement.ofLine line = some (read line)) :
    Leads segment.lines (between globals methods)
      (between (globals ++ segment.global?.toList) (methods ++ segment.method?.toList)) (segment.events read) := by
  cases valid with
  | @global line _ known simple =>
    have here := reads line (by simp [Segment.lines])
    cases known.symm.trans here
    have taken : Takes line (between globals methods) (read line) (between (globals ++ [line]) methods) := .global simple
    have leads := Leads.keep here taken rfl (.nil _)
    simpa [Segment.events, Segment.lines] using leads
  | @method header name parameters body made head closes makes =>
    obtain ⟨here, others⟩ := List.forall_mem_cons.mp reads
    have starts : Takes header (between globals methods) (read header) (inside globals methods header 1 []) := by
      rw [← Option.some.inj (head.symm.trans here)]
      exact .head
    have leads : Leads body (inside globals methods header 1 []) (between globals (methods ++ [made]))
        (body.map (told read) ++ [made.collected]) :=
      leads_of_body (Nat.le_refl 1) closes makes (fresh made (method?_of_made makes)) others
    simpa [Segment.events, Segment.lines, method?_of_made makes] using Leads.keep here starts rfl leads

/-- Each line is read once and in order, and each method is told of behind its last line. -/
theorem leads_of_fills {cut : List Segment} {outline : Outline} (filled : Fills globals methods cut outline)
    (reads : ∀ line ∈ linesOf cut, Statement.ofLine line = some (read line)) :
    Leads (linesOf cut) (between globals methods) ⟨outline, none⟩ (cut.flatMap (Segment.events read)) := by
  induction cut generalizing globals methods with
  | nil =>
    obtain ⟨-, rfl⟩ := fills_nil_iff.mp filled
    exact .nil _
  | cons segment cut ih =>
    obtain ⟨here, others⟩ := List.forall_mem_append.mp reads
    obtain ⟨valid, rest⟩ := fills_cons_iff.mp filled
    refine (leads_of_segment valid ?_ here).append (ih rest others)
    intro made member
    rw [Option.mem_def] at member
    have distinct := rest.distinct
    rw [member] at distinct
    exact fresh_of_nodup distinct

/-! The second pass. -/

private theorem quiet_variableLine (line : Text) : Quiet (Check.variableLine line) := by
  unfold Check.variableLine
  split
  · exact events_raise _
  · exact .forM fun _ => events_step _
  · exact .forM fun _ => events_step _

private theorem quiet_statement (table : MethodTable) (line : Text) (depth : Nat) (statement : Statement) :
    Quiet (Check.statement table line depth statement) := by
  cases depth with
  | zero => cases statement <;> exact events_raise _
  | succ depth =>
    cases statement with
    | methodHead name parameters => exact events_raise _
    | blockEnd => exact .bind (events_step _) fun _ => events_pure _
    | blockHead t => exact .bind (events_test _) fun _ => .bind (events_step _) fun _ => events_pure _
    | call callee given => exact .bind (events_test _) fun _ => events_pure _
    | declaration | assignment => exact .bind (quiet_variableLine line) fun _ => events_pure _
    | ret => exact events_pure _

private theorem globalLine_tells (reads : Statement.ofLine line = some (read line)) :
    Tells (Check.globalLine line) [told read line] := by
  refine .bind_quiet (.read reads) fun statement => ?_
  cases statement with
  | declaration | assignment => exact quiet_variableLine line
  | methodHead _ _ | call _ _ | blockHead _ | blockEnd | ret => exact events_raise _

private theorem lines_tell {table : MethodTable} {depth : Nat}
    (reads : ∀ line ∈ body, Statement.ofLine line = some (read line)) :
    Tells (Check.lines table depth body) (body.map (told read)) := by
  induction body generalizing depth with
  | nil => exact .of_quiet (events_pure _)
  | cons line body ih =>
    obtain ⟨here, later⟩ := List.forall_mem_cons.mp reads
    have again : Tells (Check.line table depth line) [told read line] := by
      have trimmed : Statement.ofLine line.trim = some (read line) := (Statement.ofLine_trim line).trans here
      have tells : Tells (Run.read line.trim : Run Scopes Statement) [.read line.trim.trim (read line)] := .read trimmed
      rw [Text.trim_trim] at tells
      exact tells.bind_quiet fun statement => quiet_statement table line.trim depth statement
    rw [BodySteps.lines_cons]
    exact .bind again fun _ => ih later

private theorem getLast?_dropLast_iff (closes : ClosesFrom 1 body) :
    body.dropLast.getLast? = none ↔ body.map Text.trim = [['}']] := by
  obtain ⟨front, last, rfl, -, known⟩ := closes.exists_concat
  have brace : last.trim = ['}'] := Statement.fits_of_ofLine known
  rw [List.dropLast_concat, List.getLast?_eq_none_iff, List.map_append, List.map_singleton, brace]
  constructor
  · rintro rfl
    rfl
  · intro single
    simpa using single

private theorem trailingReturn_tells (checked : Method) :
    Tells (Check.trailingReturn checked)
      (if checked.body.dropLast.getLast? = none then [.noReturnCheck checked.name] else []) := by
  unfold Check.trailingReturn
  cases checked.body.dropLast.getLast? with
  | none => exact .tell _
  | some line =>
    refine .of_quiet ?_
    dsimp only
    split
    · exact events_pure _
    · exact events_raise _

private theorem method_tells {table : MethodTable} {checked : Method}
    (reads : ∀ line ∈ checked.body, Statement.ofLine line = some (read line)) :
    Tells (Check.method table checked)
      ((if checked.body.dropLast.getLast? = none then [.noReturnCheck checked.name] else []) ++
        checked.body.map (told read)) := by
  refine (trailingReturn_tells checked).bind fun _ => ?_
  refine .quiet_bind (events_step _) fun _ => .quiet_bind (.forM fun _ => events_step _) fun _ => ?_
  refine (lines_tell reads).bind_quiet fun depth => ?_
  cases depth with
  | zero => exact events_pure _
  | succ depth => exact events_raise _

private theorem eachMethod_tells {table : MethodTable} {all : List Method}
    (reads : ∀ checked ∈ all, ∀ line ∈ checked.body, Statement.ofLine line = some (read line)) :
    Tells (Check.eachMethod table all) (all.flatMap (Method.events read)) := by
  apply Tells.forM
  intro checked member
  apply Tells.bind (.tell (.validating checked.name))
  intro _ scopes value after ended
  have short := getLast?_dropLast_iff (BodySteps.closes_of_method ended)
  rw [method_tells (reads checked member) scopes value after ended, if_congr short rfl rfl]
  rfl

private theorem events_globals {scopes left : Scopes}
    (reads : ∀ line ∈ globals, Statement.ofLine line = some (read line))
    (declared : ending (Check.globals globals) scopes = (.ok (), left)) :
    events (Check.globals globals) scopes = globals.map (told read) ++ [.declared left.global.length] := by
  have each : Tells (globals.forM Check.globalLine) (globals.flatMap fun line => [told read line]) :=
    .forM fun line member => globalLine_tells (reads line member)
  have passed := GlobalScope.ending_globals_eq_ok_iff.mp declared
  rw [Check.globals, events_bind_of_ok passed, each scopes () left passed, List.map_eq_flatMap]
  rfl

private theorem eachMethod_names {table : MethodTable} {all : List Method} {left last : Scopes}
    (passed : ending (Check.eachMethod table all) left = (.ok (), last)) : last.names = left.names := by
  induction all generalizing left with
  | nil =>
    cases passed
    rfl
  | cons checked all ih =>
    obtain ⟨middle, first, rest⟩ := OuterScopes.ending_eachMethod_cons_eq_ok_iff.mp passed
    have known : ∀ parameter ∈ checked.parameters, (fun _ => True) parameter := fun _ _ => trivial
    have climbs := (ScopeChanges.method_climbs table checked left known).of_ok rfl first
    exact (ih rest).trans (Scopes.names_of_climbs climbs)

/-! The whole run. -/

private theorem events_build {cut : List Segment} (isCut : IsCut lines cut)
    (reads : ∀ line ∈ lines, Statement.ofLine line = some (read line)) :
    Run.events (Outline.build lines) {} = cut.flatMap (Segment.events read) := by
  obtain ⟨rfl, valid, distinct⟩ := isCut
  have filled : Fills [] [] cut ⟨globalsOf cut, .ofMethods (methodsOf cut)⟩ := ⟨valid, distinct, rfl⟩
  have leads := leads_of_fills filled reads
  exact (events_bind_of_ok leads.ends).trans (by rw [events_test, List.append_nil]; exact leads.tells)

private theorem ending_build {outline : Outline} (built : Outline.ofLines lines = .ok outline) (scopes : Scopes) :
    ending (within {} (Outline.build lines)) scopes = (.ok outline, scopes) := by
  rw [ending_within]
  exact congrArg (·, scopes) built

private theorem events_outline {outline : Outline} {scopes left last : Scopes}
    (declared : ending (Check.globals outline.globals) scopes = (.ok (), left))
    (checked : ending (Check.eachMethod outline.methods outline.methods.methods) left = (.ok (), last)) :
    Run.events (Check.outline outline) scopes = Run.events (Check.globals outline.globals) scopes ++
      Run.events (Check.eachMethod outline.methods outline.methods.methods) left := by
  refine (events_bind_of_ok declared).trans (congrArg _ ((events_bind_of_ok checked).trans ?_))
  exact List.append_nil _

private theorem events_program {cut : List Segment} {verdict : Verdict} {last : Scopes} (isCut : IsCut lines cut)
    (reads : ∀ line ∈ lines, Statement.ofLine line = some (read line))
    (passed : ending (Check.program lines) {} = (.ok verdict, last)) :
    Run.events (Check.program lines) {} = cut.flatMap (Segment.events read) ++ ((globalsOf cut).map (told read) ++
      .declared verdict.scopes.global.length :: (methodsOf cut).flatMap (Method.events read)) := by
  have cutBuilt := ofLines_eq_ok_iff_cut.mpr ⟨cut, isCut, rfl⟩
  obtain ⟨outline, built, passed⟩ := AcceptedProgram.outline_of_program passed
  cases cutBuilt.symm.trans built
  obtain ⟨left, declared, checked, rfl⟩ := OuterScopes.ending_outline_eq_ok_iff.mp passed
  have globals : ∀ line ∈ globalsOf cut, Statement.ofLine line = some (read line) :=
    fun line member => reads line (AcceptedProgram.mem_of_mem_globalsOf isCut member)
  have bodies : ∀ method ∈ methodsOf cut, ∀ line ∈ method.body, Statement.ofLine line = some (read line) :=
    fun method member line inBody => reads line (AcceptedProgram.mem_of_mem_body isCut member inBody)
  rw [Check.program, events_bind_of_ok (ending_build built {}), events_within, events_build isCut reads,
    events_outline declared checked, events_globals globals declared, MethodTable.methods_ofMethods]
  rw [MethodTable.methods_ofMethods] at checked
  have length : last.global.length = left.global.length := by
    rw [Scopes.length_global, Scopes.length_global, eachMethod_names checked]
  rw [eachMethod_tells bodies left () last checked, length, List.append_assoc]
  rfl

private theorem events_source {source : Source} (clean : source.isClean = true) :
    (Check.source source).events = Run.events (Check.program source.lines) {} := by
  unfold Check.source Run.events
  rw [if_pos clean]
  rcases Check.program source.lines {} with ⟨_ | _, _, _⟩ <;> rfl

private theorem omits_close (name : Text) (closing : OpenMethod) : Omits (close closing) (.validating name) :=
  .bind (.of_quiet events_current) fun _ => .bind (.of_quiet (events_replace _)) fun _ =>
    .bind (.of_quiet (events_test _)) fun _ => .bind (.tell nofun) fun _ =>
      .of_quiet (.bind (events_test _) fun _ => events_replace _)

private theorem omits_place (name line : Text) (statement : Statement) :
    Omits (place line statement) (.validating name) := by
  refine .bind (.of_quiet events_current) fun builder => ?_
  rcases builder with ⟨outline, _ | ⟨header, depth, body⟩⟩
  · cases statement <;> exact .of_quiet fun _ => rfl
  · cases statement with
    | blockEnd =>
      rcases depth with _ | _ | depth
      · exact .of_quiet (events_raise _)
      · exact omits_close name _
      · exact .of_quiet (events_replace _)
    | methodHead _ _ => exact .of_quiet (events_raise _)
    | declaration | assignment | call _ _ | blockHead _ | ret => exact .of_quiet (events_replace _)

private theorem omits_build (name : Text) (lines : List Text) : Omits (Outline.build lines) (.validating name) :=
  .bind (.forM fun line => .bind (.read line nofun) fun statement => omits_place name line statement)
    fun _ => .of_quiet (events_test _)

private theorem omits_globals (name : Text) (globals : List Text) : Omits (Check.globals globals) (.validating name) := by
  refine .bind (.forM fun line => .bind (.read line nofun) fun statement => ?_) fun _ => ?_
  · cases statement with
    | declaration | assignment => exact .of_quiet (quiet_variableLine line)
    | methodHead _ _ | call _ _ | blockHead _ | blockEnd | ret => exact .of_quiet (events_raise _)
  · exact .bind (.of_quiet events_current) fun _ => .tell nofun

private theorem exists_of_validating {name : Text} (told : .validating name ∈ Run.events (Check.program lines) {}) :
    ∃ outline left, Outline.ofLines lines = .ok outline ∧ ending (Check.globals outline.globals) {} = (.ok (), left) := by
  rcases mem_events_bind_iff.mp told with early | ⟨outline, start, built, late⟩
  · exact absurd early (omits_build name lines {})
  · rw [ending_within, Prod.mk.injEq] at built
    obtain ⟨made, rfl⟩ := built
    rcases mem_events_bind_iff.mp late with early | ⟨_, left, declared, _⟩
    · exact absurd early (omits_globals name outline.globals {})
    · exact ⟨outline, left, made, declared⟩

def readings (events : List Event) : Nat :=
  events.countP fun event => event.level == .trace

@[simp] private theorem readings_append (first last : List Event) :
    readings (first ++ last) = readings first + readings last :=
  List.countP_append

@[simp] private theorem readings_lines (read : Text → Statement) (lines : List Text) :
    readings (lines.map (told read)) = lines.length := by
  rw [readings, List.countP_map, List.countP_eq_length]
  exact fun _ _ => rfl

private theorem readings_segment (read : Text → Statement) (segment : Segment) :
    readings (segment.events read) = segment.lines.length := by
  rw [Segment.events, readings_append, readings_lines]
  cases segment.method? <;> rfl

private theorem readings_method (read : Text → Statement) (method : Method) :
    readings (method.events read) = method.body.length := by
  have unread : readings (if method.body.map Text.trim = [['}']] then [.noReturnCheck method.name] else []) = 0 := by
    split <;> rfl
  have first (rest : List Event) : readings (.validating method.name :: rest) = readings rest := rfl
  rw [Method.events, first, readings_append, unread, readings_lines, Nat.zero_add]

private theorem readings_cut {cut : List Segment} (valid : ∀ segment ∈ cut, segment.Valid) :
    readings (cut.flatMap (Segment.events read)) + readings ((globalsOf cut).map (told read)) +
      readings ((methodsOf cut).flatMap (Method.events read)) + (methodsOf cut).length = 2 * (linesOf cut).length := by
  induction cut with
  | nil => rfl
  | cons segment cut ih =>
    obtain ⟨here, later⟩ := List.forall_mem_cons.mp valid
    have rest := ih later
    rw [List.flatMap_cons, readings_append, readings_segment]
    simp only [linesOf, List.flatMap_cons, List.length_append] at rest ⊢
    cases here with
    | @global line statement known simple =>
      have globals : globalsOf (.global line :: cut) = line :: globalsOf cut := rfl
      have methods : methodsOf (.global line :: cut) = methodsOf cut := rfl
      rw [globals, methods]
      simp only [readings_lines, Segment.lines, List.length_cons, List.length_nil] at rest ⊢
      omega
    | @method header name parameters body made head closes makes =>
      have globals : globalsOf (.method header body :: cut) = globalsOf cut := rfl
      have methods : methodsOf (.method header body :: cut) = made :: methodsOf cut :=
        List.filterMap_cons_some (method?_of_made makes)
      rw [globals, methods, List.flatMap_cons, readings_append, readings_method, body_of_ofHeader makes]
      simp only [Segment.lines, List.length_cons] at rest ⊢
      omega

private theorem exists_statement {segment : Segment} (valid : segment.Valid) (member : line ∈ segment.lines) :
    ∃ statement, Statement.ofLine line = some statement := by
  cases valid with
  | global known simple =>
    cases List.mem_singleton.mp member
    exact ⟨_, known⟩
  | method head closes makes =>
    rcases List.mem_cons.mp member with rfl | inBody
    · exact ⟨_, head⟩
    · obtain ⟨statement, known, -⟩ := closes.inner line inBody
      exact ⟨statement, known⟩

/-- Each line is read once in each pass, and in order. Where a source is accepted, what is told are
its lines, with each method behind its last line; then the global lines and how many variables
they have declared; then for each method its name and its lines. Where it is not, no method is
checked before all lines have been cut and all global lines accepted. -/
theorem events_of_source (source : Source) :
    (∀ verdict, (Check.source source).result = .ok verdict →
      ∃ cut read, IsCut source.lines cut ∧ (∀ line ∈ source.lines, Statement.ofLine line = some (read line)) ∧
        (Check.source source).events = cut.flatMap (Segment.events read) ++ ((globalsOf cut).map (told read) ++
          .declared verdict.scopes.global.length :: (methodsOf cut).flatMap (Method.events read)) ∧
        readings (Check.source source).events + (methodsOf cut).length = 2 * source.lines.length) ∧
    ∀ name, .validating name ∈ (Check.source source).events →
      source.isClean = true ∧ ∃ outline left, Outline.ofLines source.lines = .ok outline ∧
        ending (Check.globals outline.globals) {} = (.ok (), left) := by
  constructor
  · intro verdict accepted
    obtain ⟨clean, last, passed⟩ := AcceptedProgram.program_of_source accepted
    obtain ⟨outline, built, _⟩ := AcceptedProgram.outline_of_program passed
    obtain ⟨cut, isCut, rfl⟩ := ofLines_eq_ok_iff_cut.mp built
    have reads : ∀ line ∈ source.lines, Statement.ofLine line = some ((Statement.ofLine line).getD .ret) := by
      intro line member
      rw [← isCut.whole] at member
      obtain ⟨segment, inCut, inSegment⟩ := List.mem_flatMap.mp member
      obtain ⟨statement, known⟩ := exists_statement (isCut.valid segment inCut) inSegment
      rw [known, Option.getD_some]
    have told := (events_source clean).trans (events_program isCut reads passed)
    refine ⟨cut, fun line => (Statement.ofLine line).getD .ret, isCut, reads, told, ?_⟩
    rw [told, ← isCut.whole, ← readings_cut isCut.valid, readings_append, readings_append]
    exact congrArg (· + _) (Nat.add_assoc _ _ _).symm
  · intro name told
    cases clean : source.isClean with
    | false =>
      rw [Check.source, clean] at told
      cases told
    | true =>
      rw [events_source clean] at told
      exact ⟨rfl, exists_of_validating told⟩

example : (Check.source (Source.ofText "int x;\nvoid f() \x7b\n\x7d\n".toList)).events =
    [.read "int x;".toList .declaration, .read "void f() \x7b".toList (.methodHead "f".toList []),
      .read "\x7d".toList .blockEnd, .collected "f".toList 0 1, .read "int x;".toList .declaration, .declared 1,
      .validating "f".toList, .noReturnCheck "f".toList, .read "\x7d".toList .blockEnd] := by
  decide +kernel

end ToldLines
end Linewise

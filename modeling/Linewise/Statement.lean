import Linewise.Name

/-! Every line is one statement by itself, and its kind is read off its first word and its
last mark. The readers of the kinds are separate, because each part of a line is wanted on
its own too; where several would apply, the order in `ofLine` decides. -/

namespace Linewise

inductive Statement
  | methodHead (name parameters : Text)
  | declaration
  | assignment
  | call (callee arguments : Text)
  | blockHead (condition : Text)
  | blockEnd
  | ret
  deriving DecidableEq, Repr

namespace Statement

def isParenthesis (c : Char) : Bool :=
  c == '(' || c == ')'

/-- The raw name and the raw parameters of a line such as `void f(int a) {`. -/
def methodHead? (line : Text) : Option (Text × Text) := do
  let rest ← line.trim.afterWord? Keyword.void
  let rest ← rest.afterBlanks?
  let (name, rest) ← rest.rawName?
  let parameters ← rest.bracketed? '{'
  if parameters.any isParenthesis then none else some (name, parameters)

/-- The first word of a line that is about a name of the program's own. -/
def ownName? (line : Text) : Option (Text × Text) := do
  let (name, rest) ← line.rawName?
  if isReserved name then none else some (name, rest)

/-- The callee and the raw arguments of a line such as `f(1, x);`. -/
def call? (line : Text) : Option (Text × Text) := do
  let (callee, rest) ← ownName? line.trim
  let arguments ← rest.bracketed? ';'
  some (callee, arguments.trim)

/-- The raw condition of a line such as `while (x) {`. -/
def blockHead? (line : Text) : Option Text := do
  let rest ← (line.trim.afterWord? Keyword.branch).or (line.trim.afterWord? Keyword.loop)
  let condition ← rest.bracketed? '{'
  some condition.trim

/-- Something other than blanks, and a semicolon at the end. -/
def hasBody (t : Text) : Bool :=
  match t.beforeLast? ';' with
  | none => false
  | some body => !body.trim.isEmpty

/-- A type's keyword and the blanks that have to follow it. -/
def afterType? (t : Text) : Option (Ty × Text) := do
  let (word, rest) ← t.rawName?
  let ty ← Ty.ofKeyword? word
  let rest ← rest.afterBlanks?
  some (ty, rest)

/-- The front of a declaration and of a parameter: a type, which may be said to be final.
Where no blank follows the word `final`, it is no front at all. -/
def typed? (t : Text) : Option (Bool × Ty × Text) :=
  match t.afterWord? Keyword.final with
  | none => (afterType? t).map (false, ·)
  | some rest => (rest.afterBlanks?.bind afterType?).map (true, ·)

def isDeclaration (line : Text) : Bool :=
  match typed? line with
  | none => false
  | some (_, _, rest) => hasBody rest

/-- A second equals sign would make it a comparison, which is no statement. -/
def isAssignment (line : Text) : Bool :=
  match ownName? line with
  | none => false
  | some (_, rest) =>
    match rest.trimLeft with
    | '=' :: value => value.head? != some '=' && hasBody value
    | _ => false

def ofTrimmed (line : Text) : Option Statement :=
  match methodHead? line with
  | some (name, parameters) => some (methodHead name parameters)
  | none =>
    if isDeclaration line then some declaration
    else if isAssignment line then some assignment
    else match call? line with
      | some (callee, arguments) => some (call callee arguments)
      | none =>
        match blockHead? line with
        | some condition => some (blockHead condition)
        | none =>
          if line = ['}'] then some blockEnd
          else if line = Keyword.ret ++ [';'] then some ret
          else none

def ofLine (line : Text) : Option Statement :=
  ofTrimmed line.trim

def kind : Statement → String
  | methodHead _ _ => "MethodHeader"
  | declaration => "VariableDeclaration"
  | assignment => "VariableAssignment"
  | call _ _ => "FunctionCall"
  | blockHead _ => "ConditionOrLoopStart"
  | blockEnd => "BlockEnd"
  | ret => "ReturnStatement"

end Statement
end Linewise

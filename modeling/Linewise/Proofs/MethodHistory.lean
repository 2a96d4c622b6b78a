import Linewise.Proofs.MethodRegistry
import Linewise.Proofs.RunEnding

/-! Methods that are registered one after the other. A name that is taken is refused and the next method has
its turn, so the table holds the first method of each name, in order, and every way into it finds the same. -/

namespace Linewise.MethodTable

def registerAll : List Method → MethodTable → List (Except Fault Unit) × MethodTable
  | [], table => ([], table)
  | method :: methods, table =>
    let (result, after) := Run.ending (Run.step fun table => table.register method) table
    let (results, last) := registerAll methods after
    (result :: results, last)

def accepted (methods : List Method) (results : List (Except Fault Unit)) : List Method :=
  (methods.zip results).filterMap fun (method, result) => if result.isOk then some method else none

variable {table after : MethodTable} {method : Method} {fault : Fault}

theorem register_eq_error_iff :
    table.register method = .error fault ↔ table.contains method.name = true ∧ fault = .duplicateMethod method.name := by
  unfold register
  split
  · next taken => simp [taken, eq_comm]
  · next fresh => simp [fresh]

theorem registerAll_cons_of_ok (done : table.register method = .ok after) (methods : List Method) :
    registerAll (method :: methods) table = (.ok () :: (registerAll methods after).1, (registerAll methods after).2) := by
  rw [registerAll, Run.ending_step_eq_ok_iff.mpr done]

theorem registerAll_cons_of_error (failed : table.register method = .error fault) (methods : List Method) :
    registerAll (method :: methods) table = (.error fault :: (registerAll methods table).1, (registerAll methods table).2) := by
  rw [registerAll, Run.ending_step_eq_error_iff.mpr ⟨failed, rfl⟩]

theorem registered_registerAll (registered : table.Registered) (methods : List Method) :
    (registerAll methods table).2.Registered := by
  induction methods generalizing table with
  | nil => exact registered
  | cons method methods ih =>
    cases done : table.register method with
    | error fault =>
      rw [registerAll_cons_of_error done]
      exact ih registered
    | ok after =>
      rw [registerAll_cons_of_ok done]
      exact ih (.register registered done)

/-- A name finds what it found before, and if that was nothing, the first method that comes with the name. -/
theorem get?_registerAll (registered : table.Registered) (methods : List Method) (name : Text) :
    (registerAll methods table).2.get? name = (table.get? name).or (methods.find? fun method => method.name == name) := by
  induction methods generalizing table with
  | nil => exact Option.or_none.symm
  | cons method methods ih =>
    cases done : table.register method with
    | error fault =>
      rw [registerAll_cons_of_error done, ih registered, List.find?_cons]
      by_cases same : method.name = name
      · subst same
        obtain ⟨found, known⟩ := registered.contains_iff.mp (register_eq_error_iff.mp done).1
        rw [known, Option.some_or, Option.some_or]
      · rw [beq_false_of_ne same]
    | ok after =>
      rw [registerAll_cons_of_ok done, ih (.register registered done), registered.get?_of_register done, Option.or_assoc,
        List.find?_cons]
      by_cases same : method.name = name
      · rw [if_pos same, beq_iff_eq.mpr same, Option.some_or]
      · rw [if_neg same, beq_false_of_ne same, Option.none_or]

theorem methods_registerAll (methods : List Method) (table : MethodTable) :
    (registerAll methods table).2.methods = table.methods ++ accepted methods (registerAll methods table).1 := by
  induction methods generalizing table with
  | nil => exact (List.append_nil _).symm
  | cons method methods ih =>
    cases done : table.register method with
    | error fault =>
      rw [registerAll_cons_of_error done]
      exact ih table
    | ok after =>
      rw [registerAll_cons_of_ok done, ih after, (register_eq_ok_iff.mp done).2]
      exact List.append_assoc _ _ _

/-- Whichever methods are registered, the table holds those that were not refused, in order. A name leads to
the place of the method that has it, and what it finds there is the first method that came with the name. The
next method is refused exactly where its name is taken, and that changes nothing. -/
theorem registering_keeps_first (methods : List Method) :
    (registerAll methods {}).2.methods = accepted methods (registerAll methods {}).1 ∧
    (registerAll methods {}).2.size = (accepted methods (registerAll methods {}).1).length ∧
    ((registerAll methods {}).2.methods.map Method.name).Nodup ∧
    (∀ name position, (registerAll methods {}).2.position? name = some position ↔
      ∃ method, (registerAll methods {}).2.methods[position]? = some method ∧ method.name = name) ∧
    (∀ name, (registerAll methods {}).2.get? name = methods.find? fun method => method.name == name) ∧
    (∀ name, (registerAll methods {}).2.contains name = true ↔ ∃ method, (registerAll methods {}).2.get? name = some method) ∧
    ∀ method fault after,
      Run.ending (Run.step fun table => table.register method) (registerAll methods {}).2 = (.error fault, after) ↔
        (registerAll methods {}).2.contains method.name = true ∧ fault = .duplicateMethod method.name ∧
          after = (registerAll methods {}).2 := by
  have registered : (registerAll methods {}).2.Registered := registered_registerAll .empty methods
  have whole : (registerAll methods {}).2.methods = accepted methods (registerAll methods {}).1 :=
    methods_registerAll methods {}
  refine ⟨whole, congrArg List.length whole, registered.eq_ofMethods.2, fun name position => ?_, fun name => ?_,
    fun name => registered.contains_iff, fun method fault after => ?_⟩
  · exact registered.position?_eq_some_iff
  · exact (get?_registerAll .empty methods name).trans Option.none_or
  · rw [Run.ending_step_eq_error_iff, register_eq_error_iff, and_assoc]

end Linewise.MethodTable

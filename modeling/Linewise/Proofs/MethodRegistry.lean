import Linewise.MethodTable
import Mathlib.Data.List.Induction
import Mathlib.Data.List.Nodup

/-! A table that was filled by registering holds its methods in order, and finds each of
them under its name. -/

namespace Linewise.MethodTable

def insert (table : MethodTable) (method : Method) : MethodTable :=
  ⟨table.methods ++ [method], (method.name, table.size) :: table.positions⟩

def ofMethods (methods : List Method) : MethodTable :=
  methods.foldl insert {}

theorem ofMethods_append (methods : List Method) (method : Method) :
    ofMethods (methods ++ [method]) = (ofMethods methods).insert method := by
  simp only [ofMethods, List.foldl_append, List.foldl_cons, List.foldl_nil]

private theorem foldl_insert_methods (table : MethodTable) (methods : List Method) :
    (methods.foldl insert table).methods = table.methods ++ methods := by
  induction methods generalizing table with
  | nil => simp
  | cons method methods ih => simp [ih, insert]

@[simp] theorem methods_ofMethods (methods : List Method) : (ofMethods methods).methods = methods := by
  simp [ofMethods, foldl_insert_methods]

theorem contains_insert (table : MethodTable) (method : Method) (name : Text) :
    (table.insert method).contains name = (decide (name = method.name) || table.contains name) := by
  unfold contains insert
  rw [position?_cons]
  by_cases same : name = method.name
  · simp [same]
  · simp [same, position?]

private theorem contains_foldl_insert (table : MethodTable) (methods : List Method) (name : Text) :
    (methods.foldl insert table).contains name = true ↔
      table.contains name = true ∨ name ∈ methods.map Method.name := by
  induction methods generalizing table with
  | nil => simp
  | cons method methods ih =>
    rw [List.foldl_cons, ih, contains_insert]
    simp only [Bool.or_eq_true, decide_eq_true_eq, List.map_cons, List.mem_cons]
    constructor
    · rintro ((same | held) | later)
      · exact Or.inr (Or.inl same)
      · exact Or.inl held
      · exact Or.inr (Or.inr later)
    · rintro (held | same | later)
      · exact Or.inl (Or.inr held)
      · exact Or.inl (Or.inl same)
      · exact Or.inr later

theorem contains_ofMethods_iff {methods : List Method} {name : Text} :
    (ofMethods methods).contains name = true ↔ name ∈ methods.map Method.name := by
  unfold ofMethods
  rw [contains_foldl_insert]
  simp [contains, position?]

/-- What registering does to a table of some methods: only a name that is taken is refused. -/
theorem register_ofMethods_eq_ok_iff {methods : List Method} {method : Method} {after : MethodTable} :
    (ofMethods methods).register method = .ok after ↔
      method.name ∉ methods.map Method.name ∧ after = ofMethods (methods ++ [method]) := by
  rw [register_eq_ok_iff, ofMethods_append, ← Bool.not_eq_true, contains_ofMethods_iff]
  rfl

private def Leads (table : MethodTable) : Prop :=
  ∀ name position, table.position? name = some position →
    ∃ method, table.methods[position]? = some method ∧ method.name = name

private theorem Leads.insert {table : MethodTable} (leads : table.Leads) (method : Method) :
    (table.insert method).Leads := by
  intro name position placed
  unfold MethodTable.insert at placed ⊢
  rw [position?_cons] at placed
  split at placed
  · next same =>
    cases placed
    exact ⟨method, List.getElem?_concat_length, same.symm⟩
  · obtain ⟨found, there, named⟩ := leads name position placed
    have inside := (List.getElem?_eq_some_iff.mp there).1
    exact ⟨found, (List.getElem?_append_left inside).trans there, named⟩

private theorem leads_foldl_insert {table : MethodTable} (leads : table.Leads) (methods : List Method) :
    (methods.foldl insert table).Leads := by
  induction methods generalizing table with
  | nil => exact leads
  | cons method methods ih => exact ih (leads.insert method)

private theorem leads_ofMethods (methods : List Method) : (ofMethods methods).Leads := by
  apply leads_foldl_insert
  intro name position placed
  cases placed

/-- What a name finds is one of the methods, and has that name. -/
theorem mem_of_get?_ofMethods {methods : List Method} {name : Text} {method : Method}
    (found : (ofMethods methods).get? name = some method) : method ∈ methods ∧ method.name = name := by
  have leads := leads_ofMethods methods
  unfold get? at found
  cases placed : (ofMethods methods).position? name with
  | none =>
    rw [placed] at found
    cases found
  | some position =>
    rw [placed] at found
    obtain ⟨other, there, named⟩ := leads name position placed
    cases found.symm.trans there
    rw [methods_ofMethods] at there
    exact ⟨List.mem_of_getElem? there, named⟩

private theorem exists_get?_of_contains {methods : List Method} {name : Text}
    (held : (ofMethods methods).contains name = true) : ∃ method, (ofMethods methods).get? name = some method := by
  obtain ⟨position, placed⟩ := Option.isSome_iff_exists.mp held
  obtain ⟨method, there, _⟩ := leads_ofMethods methods name position placed
  unfold get?
  rw [placed]
  exact ⟨method, there⟩

/-- A table that registering has filled. A method that is refused leaves the table as it was. -/
inductive Registered : MethodTable → Prop where
  | empty : Registered {}
  | register {table after method} (earlier : Registered table) (done : table.register method = .ok after) :
    Registered after

theorem registered_ofMethods {methods : List Method} (distinct : (methods.map Method.name).Nodup) :
    (ofMethods methods).Registered := by
  induction methods using List.reverseRecOn with
  | nil => exact .empty
  | append_singleton methods method ih =>
    rw [List.map_append, List.nodup_append] at distinct
    obtain ⟨earlier, -, apart⟩ := distinct
    have fresh : method.name ∉ methods.map Method.name := fun member => apart _ member _ (by simp) rfl
    exact .register (ih earlier) (register_ofMethods_eq_ok_iff.mpr ⟨fresh, rfl⟩)

namespace Registered

variable {table : MethodTable}

theorem eq_ofMethods (registered : table.Registered) :
    table = ofMethods table.methods ∧ (table.methods.map Method.name).Nodup := by
  induction registered with
  | empty => exact ⟨rfl, .nil⟩
  | @register table after method _ done ih =>
    obtain ⟨whole, distinct⟩ := ih
    rw [whole] at done
    obtain ⟨fresh, same⟩ := register_ofMethods_eq_ok_iff.mp done
    have methods : after.methods = table.methods ++ [method] := by rw [same, methods_ofMethods]
    refine ⟨by rw [methods, same], ?_⟩
    rw [methods, List.map_append, List.nodup_append]
    refine ⟨distinct, List.pairwise_singleton _ _, ?_⟩
    intro name earlier other now equal
    cases List.mem_singleton.mp now
    exact fresh (equal ▸ earlier)

/-- No two methods of such a table have one name. -/
theorem eq_of_name {method other : Method} (registered : table.Registered) (member : method ∈ table.methods)
    (again : other ∈ table.methods) (same : method.name = other.name) : method = other :=
  List.inj_on_of_nodup_map registered.eq_ofMethods.2 member again same

/-- A method is found under its name, and nothing else is. -/
theorem get?_eq_some_iff (registered : table.Registered) {name : Text} {method : Method} :
    table.get? name = some method ↔ method ∈ table.methods ∧ method.name = name := by
  have whole := registered.eq_ofMethods.1
  constructor
  · intro found
    rw [whole] at found
    exact mem_of_get?_ofMethods found
  · intro ⟨member, named⟩
    have held : (ofMethods table.methods).contains name = true :=
      contains_ofMethods_iff.mpr (List.mem_map.mpr ⟨method, member, named⟩)
    obtain ⟨other, found⟩ := exists_get?_of_contains held
    obtain ⟨again, called⟩ := mem_of_get?_ofMethods found
    cases registered.eq_of_name member again (named.trans called.symm)
    rw [whole]
    exact found

/-- A name leads to the position of the method that has it, and to no other. -/
theorem position?_eq_some_iff (registered : table.Registered) {name : Text} {position : Nat} :
    table.position? name = some position ↔ ∃ method, table.methods[position]? = some method ∧ method.name = name := by
  obtain ⟨whole, distinct⟩ := registered.eq_ofMethods
  have leads : table.Leads := by
    rw [whole]
    exact leads_ofMethods table.methods
  constructor
  · exact leads name position
  · rintro ⟨method, there, rfl⟩
    have held : (ofMethods table.methods).contains method.name = true :=
      contains_ofMethods_iff.mpr (List.mem_map_of_mem (List.mem_of_getElem? there))
    rw [← whole] at held
    obtain ⟨other, placed⟩ := Option.isSome_iff_exists.mp held
    obtain ⟨found, again, named⟩ := leads method.name other placed
    have inside : other < (table.methods.map Method.name).length := by
      rw [List.length_map]
      exact (List.getElem?_eq_some_iff.mp again).1
    have same : (table.methods.map Method.name)[other]? = (table.methods.map Method.name)[position]? := by
      rw [List.getElem?_map, List.getElem?_map, again, there, Option.map_some, Option.map_some, named]
    rw [placed, (List.getElem?_inj inside distinct).mp same]

theorem contains_iff (registered : table.Registered) {name : Text} :
    table.contains name = true ↔ ∃ method, table.get? name = some method := by
  have whole := registered.eq_ofMethods.1
  rw [whole]
  refine ⟨exists_get?_of_contains, fun ⟨method, found⟩ => ?_⟩
  obtain ⟨member, named⟩ := mem_of_get?_ofMethods found
  exact contains_ofMethods_iff.mpr (List.mem_map.mpr ⟨method, member, named⟩)

/-- A method that is registered is found from then on, and hides none that was found before. -/
theorem get?_of_register {after : MethodTable} {method : Method} (registered : table.Registered)
    (done : table.register method = .ok after) (name : Text) :
    after.get? name = (table.get? name).or (if method.name = name then some method else none) := by
  have later : after.Registered := .register registered done
  obtain ⟨fresh, methods⟩ := register_eq_ok_iff.mp done
  have free : table.get? method.name = none := by
    rw [Option.eq_none_iff_forall_ne_some]
    intro found known
    rw [registered.contains_iff.mpr ⟨found, known⟩] at fresh
    cases fresh
  ext found
  rw [later.get?_eq_some_iff, methods, List.mem_append, Option.or_eq_some_iff, registered.get?_eq_some_iff]
  constructor
  · rintro ⟨earlier | now, named⟩
    · exact Or.inl ⟨earlier, named⟩
    · cases List.mem_singleton.mp now
      exact Or.inr ⟨named ▸ free, if_pos named⟩
  · rintro (⟨earlier, named⟩ | ⟨-, now⟩)
    · exact ⟨Or.inl earlier, named⟩
    · split at now
      · next named =>
        cases now
        exact ⟨Or.inr List.mem_cons_self, named⟩
      · cases now

end Registered
end Linewise.MethodTable

import Linewise.Proofs.Lockstep

/-! All checks answer each other from scopes that compare, since none of them looks at a value
that is stored. The second side may know more methods, and more of its variables may be
initialized. Then it accepts what the first side accepts. -/

namespace Linewise

/-- Scopes that compare have all names in common, however many blocks are open. -/
theorem Overlooks.lockstep {strict : Prop} {related : Binding → Binding → Prop} (overlooks : Overlooks strict related) :
    Lockstep strict related (fun _ => True) (fun _ => Scopes.Compares related) where
  overlooks := overlooks
  lookup compares _ := compares.lookup _
  contains compares := compares.contains_current
  declared compares := compares.declared
  assign compares := compares.assign overlooks
  opened compares := compares.opened
  close compares := compares.close

namespace CheckComparison
open Run

variable {strict : Prop} {related : Binding → Binding → Prop} {first second : Scopes} {table other : MethodTable}

private theorem follows_of_somewhere {α : Type} {start stop : Run Scopes α}
    (followed : FollowsTo strict (Scopes.Compares related) (fun _ => Scopes.Compares related)
      (Lockstep.Somewhere fun _ => Scopes.Compares related) start stop) :
    Follows strict (Scopes.Compares related) start stop :=
  followed.follows (fun _ _ => id) fun _ _ ⟨_, compares⟩ => compares

theorem value_answers (overlooks : Overlooks strict related) (compares : first.Compares related second)
    (target : Ty) (t : Text) :
    Answers strict (fun _ _ => True) (Check.value first target t) (Check.value second target t) :=
  overlooks.lockstep.value_answers ⟨0, compares⟩ trivial target

theorem variableLine_follows (overlooks : Overlooks strict related) (line : Text) :
    Follows strict (Scopes.Compares related) (Check.variableLine line) (Check.variableLine line) :=
  follows_of_somewhere (overlooks.lockstep.variableLine_follows 0 fun _ _ => trivial)

theorem condition_answers (overlooks : Overlooks strict related) (compares : first.Compares related second) (t : Text) :
    Answers strict (· = ·) (Check.condition first t) (Check.condition second t) :=
  overlooks.lockstep.condition_answers ⟨0, compares⟩ fun _ _ => trivial

theorem call_answers (overlooks : Overlooks strict related) (compares : first.Compares related second)
    (extended : table.ExtendedBy other) (reverse : strict → other.ExtendedBy table) (callee given : Text) :
    Answers strict (· = ·) (Check.call table first callee given) (Check.call other second callee given) :=
  overlooks.lockstep.call_answers ⟨0, compares⟩ extended reverse callee fun _ _ => trivial

theorem method_follows (overlooks : Overlooks strict related) (extended : table.ExtendedBy other)
    (reverse : strict → other.ExtendedBy table) (checked : Method) :
    Follows strict (Scopes.Compares related) (Check.method table checked) (Check.method other checked) :=
  follows_of_somewhere (overlooks.lockstep.method_follows extended reverse fun _ _ _ _ => trivial)

theorem eachMethod_follows (overlooks : Overlooks strict related) (extended : table.ExtendedBy other)
    (reverse : strict → other.ExtendedBy table) (methods : List Method) :
    Follows strict (Scopes.Compares related) (Check.eachMethod table methods) (Check.eachMethod other methods) := by
  apply Follows.forM
  intro checked _
  apply Follows.bind (.tell _)
  exact fun _ => method_follows overlooks extended reverse checked

end CheckComparison
end Linewise

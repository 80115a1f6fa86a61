import Std.Data.ExtTreeSet
import Std.Data.ExtTreeSet.Lemmas
import TargetView.Expr

/-!
# Free identifiers

`occurrences` lists the identifiers that the value of an expression depends on, from left to
right.  Names are left out where they are not values: as the callee of a call, and as arguments of
intrinsics that take names.  `sortedNames` puts such a list in ascending order without
repetitions.
-/
namespace TargetView

/-- The names of a list in ascending order, each once. -/
def sortedNames (names : List String) : List String :=
  (names.foldl (fun set name => set.insert name) (∅ : Std.ExtTreeSet String)).toList

theorem mem_foldl_insert {names : List String} {set : Std.ExtTreeSet String} {name : String} :
    name ∈ names.foldl (fun set name => set.insert name) set ↔ name ∈ set ∨ name ∈ names := by
  induction names generalizing set with
  | nil => simp
  | cons first rest ih =>
    rw [List.foldl_cons, ih, Std.ExtTreeSet.mem_insert, Std.LawfulEqCmp.compare_eq_iff_eq,
      List.mem_cons, eq_comm (a := first), or_comm (a := name = first), or_assoc]

theorem mem_sortedNames {names : List String} {name : String} :
    name ∈ sortedNames names ↔ name ∈ names := by
  rw [sortedNames, Std.ExtTreeSet.mem_toList, mem_foldl_insert]
  simp

namespace Expr

mutual
/-- The identifiers that the value of an expression depends on. -/
def occurrences : Expr → List String
  | ident name _ => [name]
  | number .. | text .. | malformed _ | unnamed .. => []
  | member base _ _ => base.occurrences
  | index base key _ => base.occurrences ++ key.occurrences
  | unary _ operand _ => operand.occurrences
  | binary _ left right _ => left.occurrences ++ right.occurrences
  | conditional cond yes no _ => cond.occurrences ++ yes.occurrences ++ no.occurrences
  | assign _ target value _ => target.occurrences ++ value.occurrences
  | update _ _ target _ => target.occurrences
  | call _ args _ => occurrencesAll args
  | intrinsic fn _ args _ => occurrencesIn fn args

/-- The identifiers that the values of some expressions depend on. -/
def occurrencesAll : List Expr → List String
  | [] => []
  | e :: rest => e.occurrences ++ occurrencesAll rest

/-- The identifiers among the arguments of an intrinsic that are not names for it. -/
def occurrencesIn (fn : Intrinsic) : List Expr → List String
  | [] => []
  | e :: rest =>
    (if (e.nameFor? fn).isSome then [] else e.occurrences) ++ occurrencesIn fn rest
end

end Expr
end TargetView

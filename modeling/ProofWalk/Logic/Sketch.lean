import ProofWalk.Logic.Basic

/-!
# Building queries

A query may be put together without its written form. Variables are then told apart by keys: those
of one key are one variable, whatever their names, and a variable without a key is like no other.

## Main definitions

* `TermSketch`
* `Query.ofSketch?`
-/

namespace ProofWalk

/-- An argument of a goal that is put together. -/
inductive TermSketch where
  | constant (name : String)
  | free (name : String) (key : Option String)

/-- The variables of the keys met so far, and the serial of the next variable. -/
structure Sketchbook where
  keyed : List (String × Variable)
  next : Nat

/-- The term of a sketch. -/
def TermSketch.build : TermSketch → StateM Sketchbook Term
  | constant name => pure (.constant name)
  | free name key => fun book =>
    match key.bind fun k => book.keyed.lookup k with
    | some v => (.var v, book)
    | none =>
      let v : Variable := { name, serial := book.next }
      (.var v, { keyed := key.toList.map (fun k => (k, v)) ++ book.keyed, next := book.next + 1 })

/-- The goals of sketches, each a functor with its arguments. -/
def Goal.ofSketches (goals : List (String × List TermSketch)) : List Goal :=
  ((goals.mapM fun (functor, args) => do
    return { functor, args := ← args.mapM TermSketch.build } : StateM Sketchbook (List Goal)).run
      { keyed := [], next := 0 }).1

/-- The query of sketches, if there is a goal. -/
def Query.ofSketch? (goals : List (String × List TermSketch)) : Option Query :=
  match Goal.ofSketches goals with
  | [] => none
  | head :: body => some { head, body }

end ProofWalk

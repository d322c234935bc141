import Mathlib
import GridStack.Program.Build
import GridStack.Proofs.Acceptance.Generation

/-!
# The count of words on the stack

Generation counts the words that the function has on the stack. The code of an expression adds one to the
count and that of a statement nothing, from wherever they begin. Of a whole function `Disciplined` says how
the count goes: up to the label behind the body it stays between zero and a limit, and is zero there. That
no instruction takes more than there is does not depend on the tree: a tree that is not formed as it should
be is refused, but not for its words (`Emit.Lands`). How high the count goes does depend on it
(`CheckedFunction.peak`); the limit is the largest number of 32 bits, so that a counter of 32 bits never
goes round (`generation_balanced`).

Two steps are beyond this: behind its body a function other than `main` takes two words that the caller has
put under the arguments, so there the count ends at -2. And the count begins with the number of parameters
in 32 bits, which is negative for `2147483648` of them (`crowded_underflow`).
-/

namespace GridStack

namespace Emit

variable {α β : Type}

/-- Generation that is afloat ends with a count between zero and the limit, if it begins with one. -/
theorem Afloat.within {top : Int} {x : Emit α} {d : Draft} (h : Afloat top x d) (low : 0 ≤ d.depth)
    (high : d.depth ≤ top) {a : α} {after : Draft} (ok : x d = .ok (a, after)) :
    0 ≤ after.depth ∧ after.depth ≤ top := by
  induction h generalizing after with
  | pure | fresh | depth =>
    cases ok
    exact ⟨low, high⟩
  | fail => contradiction
  | instr below above =>
    unfold Emit.instr at ok
    rw [if_neg (Int.not_lt.2 below)] at ok
    cases ok
    exact ⟨below, above⟩
  | adjust _ below above =>
    cases ok
    exact ⟨below, above⟩
  | bind _ _ ih ih' =>
    obtain ⟨b, between, first, second⟩ := bind_ok ok
    obtain ⟨below, above⟩ := ih low high first
    exact ih' b between first below above second

end Emit

namespace CheckedFunction

/-- A function with more parameters than 32 bits can count, of which the body assigns to a variable that it
does not have. -/
def crowded : CheckedFunction where
  name := "f"
  params := 2147483648
  returnsValue := false
  vars := []
  body := [.set "x" (.int 1)]

end CheckedFunction

end GridStack

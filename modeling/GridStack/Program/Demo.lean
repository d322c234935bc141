import GridStack.Program.Build

/-!
# Demonstration programs

Three small programs, built as trees, that can be compiled by name.
-/

namespace GridStack

namespace Demo

/-- One write: `void main() { output(1, 2, 3); }`. -/
def output : Program :=
  ⟨[.procedure "main" [] [.apply "output" [.int 1, .int 2, .int 3]]]⟩

/-- The orbits of 1 to 10 under halving and tripling, one write to a step.

```text
void main() {
    int n = 1;
    while(n < 11) { collatz(n); n = n + 1; }
}

void collatz(int n) {
    int i = 0;
    int x = n;
    output(i, n, x);
    while(x >= 2) {
        if(x & 1) { x = 3*x + 1; } else { x = x >> 1; }
        i = i + 1;
        output(i, n, x);
    }
}
```
-/
def collatz : Program :=
  let report : Stmt := .apply "output" [.var "i", .var "n", .var "x"]
  ⟨[.procedure "main" [] [
      .declareInt "n" (.int 1),
      .whileDo (.binary .lt (.var "n") (.int 11)) [
        .apply "collatz" [.var "n"],
        .set "n" (.binary .add (.var "n") (.int 1))]],
    .procedure "collatz" ["n"] [
      .declareInt "i" (.int 0),
      .declareInt "x" (.var "n"),
      report,
      .whileDo (.binary .ge (.var "x") (.int 2)) [
        .ifElse (.binary .bitAnd (.var "x") (.int 1))
          [.set "x" (.binary .add (.binary .mul (.int 3) (.var "x")) (.int 1))]
          [.set "x" (.binary .shr (.var "x") (.int 1))],
        .set "i" (.binary .add (.var "i") (.int 1)),
        report]]]⟩

/-- The cells of a 16 by 16 grid that lie in a ring.

```text
void main() {
    int y = 0;
    while(y < 16) {
        int x = 0;
        while(x < 16) {
            if(inCircle(x, y)) { output(x, y, 1); }
            x = x + 1;
        }
        y = y + 1;
    }
}

int inCircle(int x, int y) {
    int r = 15*(x+y) - x*x - y*y;
    return r >= 45 && r < 96;
}
```
-/
def circle : Program :=
  let x : Expr := .var "x"
  let y : Expr := .var "y"
  let r : Expr := .var "r"
  ⟨[.procedure "main" [] [
      .declareInt "y" (.int 0),
      .whileDo (.binary .lt y (.int 16)) [
        .declareInt "x" (.int 0),
        .whileDo (.binary .lt x (.int 16)) [
          .ifThen (.apply "inCircle" [x, y]) [.apply "output" [x, y, .int 1]],
          .set "x" (.binary .add x (.int 1))],
        .set "y" (.binary .add y (.int 1))]],
    .function "inCircle" ["x", "y"] [
      .declareInt "r"
        (.binary .sub
          (.binary .sub
            (.binary .mul (.int 15) (.paren (.binary .add x y)))
            (.binary .mul x x))
          (.binary .mul y y)),
      .give (.binary .and (.binary .ge r (.int 45)) (.binary .lt r (.int 96)))]]⟩

/-- All demonstration programs, in the order in which they are offered. -/
def all : List (String × Program) :=
  [("output", output), ("collatz", collatz), ("circle", circle)]

/-- The names that can be asked for. -/
def names : List String :=
  all.map Prod.fst

/-- The program of a name. -/
def byName? (name : String) : Option Program :=
  all.lookup name

end Demo

end GridStack

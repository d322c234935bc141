/-!
# The operand stack

A stack of values, its top first. The height is kept beside the values, so that it can be compared with
a limit after every step without counting.
-/

namespace GridStack

/-- A stack of values. -/
structure Stack where
  /-- The values, the top first. -/
  values : List Int64
  height : Nat
  height_eq : height = values.length
deriving DecidableEq

namespace Stack

/-- The stack without values. -/
def empty : Stack :=
  ⟨[], 0, rfl⟩

/-- The stack that stands for any other is the empty one. -/
instance : Inhabited Stack := ⟨empty⟩

/-- Puts a value on top. -/
def push (value : Int64) (stack : Stack) : Stack :=
  ⟨value :: stack.values, stack.height + 1, by simp [stack.height_eq]⟩

/-- The top and the stack below it. -/
def pop? (stack : Stack) : Option (Int64 × Stack) :=
  match stack with
  | ⟨[], _, _⟩ => none
  | ⟨value :: rest, height, h⟩ => some (value, ⟨rest, height - 1, by simp [h]⟩)

/-- The value at a position counted from the bottom. -/
def get? (stack : Stack) (position : Nat) : Option Int64 :=
  if position < stack.height then stack.values[stack.height - 1 - position]? else none

/-- Replaces the value at a position counted from the bottom, if there is one. -/
def set (stack : Stack) (position : Nat) (value : Int64) : Stack :=
  if position < stack.height then
    ⟨stack.values.set (stack.height - 1 - position) value, stack.height, by simp [stack.height_eq]⟩
  else
    stack

/-- The values, the bottom first. -/
def toList (stack : Stack) : List Int64 :=
  stack.values.reverse

/-- Two stacks are the same when their values are. -/
theorem ext_values {s t : Stack} (h : s.values = t.values) : s = t := by
  obtain ⟨values, height, hs⟩ := s
  obtain ⟨values', height', ht⟩ := t
  obtain rfl : values = values' := h
  obtain rfl : height = height' := hs.trans ht.symm
  rfl

/-- The empty stack has no values. -/
@[simp] theorem values_empty : empty.values = [] := rfl

/-- A value that is pushed comes first. -/
@[simp] theorem values_push (value : Int64) (stack : Stack) :
    (stack.push value).values = value :: stack.values := rfl

/-- Popping a pushed value gives it back. -/
@[simp] theorem pop?_push (value : Int64) (stack : Stack) :
    (stack.push value).pop? = some (value, stack) := rfl

/-- Only the stack without values has no top. -/
theorem pop?_eq_none_iff (stack : Stack) : stack.pop? = none ↔ stack.values = [] := by
  obtain ⟨_ | _, _, _⟩ := stack <;> simp [pop?]

/-- What is popped off a stack is what it was pushed from. -/
theorem pop?_eq_some_iff (stack rest : Stack) (value : Int64) :
    stack.pop? = some (value, rest) ↔ stack = rest.push value := by
  constructor
  · intro h
    obtain ⟨_ | ⟨v, vs⟩, height, hs⟩ := stack
    · simp [pop?] at h
    · simp only [pop?, Option.some.injEq, Prod.mk.injEq] at h
      obtain ⟨rfl, rfl⟩ := h
      exact ext_values rfl
  · rintro rfl
    exact pop?_push value rest

end Stack

end GridStack

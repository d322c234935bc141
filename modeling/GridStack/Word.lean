/-!
# Words

A machine word has sixteen bits and is held as a number from 0 to 65535. A literal may be anything of
at most that size with either sign; a negative one stands for its remainder modulo 65536.
-/

namespace GridStack

/-- The largest word. -/
def maxWord : Int32 := 65535

/-- The word that a literal stands for, none when the literal is out of range. -/
def literalWord? (value : Int64) : Option Int32 :=
  if value < -maxWord.toInt64 ∨ maxWord.toInt64 < value then none
  else some (value.toInt32 &&& maxWord)

end GridStack

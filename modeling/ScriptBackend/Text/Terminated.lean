import ScriptBackend.Text.Utf8

/-!
# Texts in pools

A pool is one stretch of bytes in which every text is followed by a zero, so an
offset is enough to find one.
-/

namespace ScriptBackend.Text

/-- The text between an offset and the next zero of a pool. -/
def textAt? (pool : List Byte) (offset : UInt32) : Option String :=
  let tail := pool.drop offset.toNat
  if 0 ∈ tail then ofBytes? (tail.takeWhile (· ≠ 0)) else none

end ScriptBackend.Text

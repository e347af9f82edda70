/-
Output: where printed text goes.

Text is written as UTF-8 bytes.  The room for them may be limited; what does not
fit is cut off, in the middle of a character if need be.
-/
namespace Lox

/-- The bytes written so far, and how many more there is room for. -/
structure Output where
  written : ByteArray
  /-- No limit if missing. -/
  room : Option Nat
deriving Inhabited

namespace Output

/-- Nothing written yet. -/
def empty (room : Option Nat) : Output := ⟨.empty, room⟩

/-- Write what fits of a text, and tell whether all of it did. -/
def write (output : Output) (text : String) : Output × Bool :=
  match output with
  | ⟨written, none⟩ => (⟨written ++ text.toUTF8, none⟩, true)
  | ⟨written, some room⟩ =>
    let bytes := text.toUTF8
    (⟨written ++ bytes.extract 0 room, some (room - bytes.size)⟩, bytes.size ≤ room)

end Output

end Lox

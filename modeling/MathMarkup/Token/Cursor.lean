/-
MathMarkup/Token/Cursor.lean

Taking tokens one at a time with a look at the next one.  A cursor remembers
the offset of the token taken last, and what it has peeked at without taking
it.  Peeking moves the scanner underneath but neither the offset nor what
`take` gives next.
-/
import MathMarkup.Token.Lexer

namespace MathMarkup

/-- A place in a source with at most one token looked at ahead. -/
structure Cursor where
  scanner : Scanner
  offset : Nat
  peeked : Option (Found × Nat)
  deriving Repr, Inhabited

namespace Cursor

/-- The start of a source. -/
def start (source : Bytes) : Cursor :=
  ⟨.start source, 0, none⟩

/-- Takes what comes next. -/
def take (c : Cursor) : Found × Cursor :=
  match c.peeked with
  | some (found, offset) => (found, ⟨c.scanner, offset, none⟩)
  | none =>
    let (found, offset, scanner) := c.scanner.next
    (found, ⟨scanner, offset, none⟩)

/-- Looks at what comes next and leaves it to be taken. -/
def peek (c : Cursor) : Found × Cursor :=
  match c.peeked with
  | some (found, _) => (found, c)
  | none =>
    let (found, offset, scanner) := c.scanner.next
    (found, ⟨scanner, c.offset, some (found, offset)⟩)

end Cursor

end MathMarkup

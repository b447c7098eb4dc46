import ObjectLang.Code.Symbolic

/-!
Building symbolic code step by step. Instructions go to the innermost open body, or to the main
code if no body is open. Closed bodies follow the main code in the order in which they were closed;
bodies left open are closed at the end, the innermost first.
-/
namespace ObjectLang

structure Builder where
  nextLabel : Nat := 0
  main : Code := []
  /-- Open bodies, the innermost first. -/
  opened : List Code := []
  /-- Closed bodies, the first closed first. -/
  closed : List Code := []
  line : Line := 0

namespace Builder

def setLine (b : Builder) (line : Line) : Builder := { b with line }

def append (b : Builder) (code : Code) : Builder :=
  match b.opened with
  | [] => { b with main := b.main ++ code }
  | body :: rest => { b with opened := (body ++ code) :: rest }

def emit (b : Builder) (code : List Symbolic) : Builder := b.append (Symbolic.onLine b.line code)

def mark (b : Builder) (l : Label) : Builder := b.append [.mark l]

def fresh (b : Builder) : Label × Builder :=
  (⟨b.nextLabel⟩, { b with nextLabel := b.nextLabel + 1 })

def openBody (b : Builder) : Builder := { b with opened := [] :: b.opened }

/-- Closes the innermost open body; nothing happens if none is open. -/
def closeBody (b : Builder) : Builder :=
  match b.opened with
  | [] => b
  | body :: rest => { b with opened := rest, closed := b.closed ++ [body] }

def code (b : Builder) : Code := b.main ++ b.closed.flatten ++ b.opened.flatten

def finish (b : Builder) : Except CodeError Image := b.code.layout

end Builder

end ObjectLang

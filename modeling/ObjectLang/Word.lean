/-!
Machine words. A word is a 32-bit two's complement integer; its arithmetic wraps, and its division
goes toward zero. Sizes and addresses are natural numbers, and this module holds the two
conversions between them and words.
-/
namespace ObjectLang

abbrev Word := Int32

/-- Source line numbers; 0 where the tree carries none. -/
abbrev Line := Nat

namespace Word

/-- The word for a size. Sizes above the largest word are cut down to it. -/
def ofSize (size : Nat) : Word := Int32.ofNat (min size 2147483647)

/-- The position a word names in an array; a negative word names none. -/
def index? (w : Word) : Option Nat := w.toInt.toNat?

def text (w : Word) : String := toString w.toInt

end Word

def rightAligned (width : Nat) (text : String) : String :=
  String.ofList (List.replicate (width - text.length) ' ') ++ text

end ObjectLang

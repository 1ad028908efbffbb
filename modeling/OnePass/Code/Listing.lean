import OnePass.Code.Program
import OnePass.Text.Quoted

/-!
# Listings

A program in words: the pool first, then every function with its instructions numbered.
-/

namespace OnePass.Listing

/-- A value that is shown as text: not empty, and made of printable ASCII, line ends and tabs. -/
def isText (b : Bytes) : Bool :=
  !b.isEmpty && b.all fun c => c < 0x7f && (0x20 ≤ c || c == 0x0a || c == 0x09 || c == 0x0d)

/-- What a line of the pool shows of a global. -/
def describe (g : Global) : Bytes :=
  match g.value.filter isText with
  | some text => Text.quote text
  | none =>
    if g.name.isEmpty then Bytes.ofString "[" ++ Bytes.ofNat g.payload.length ++ Bytes.ofString " bytes]" else g.name

/-- The number of a line. -/
def number (n : Nat) : Bytes := Bytes.ofString "  " ++ Bytes.padLeft 4 (Bytes.ofNat n) ++ Bytes.ofString "  "

/-- A line of the pool. -/
def globalLine (n : Nat) (g : Global) : Bytes :=
  number n ++ Bytes.ofString (if g.const then "const " else "var   ") ++ describe g ++ [0x0a]

/-- The lines of a function, its place standing in for a name that it lacks. -/
def functionLines (p : Program) (n : Nat) (f : Function) : Bytes :=
  let name := p.functionName f
  let shown := if name.isEmpty then 0x23 :: Bytes.ofNat n else name
  Bytes.ofString "fn " ++ shown ++ Bytes.ofString " [" ++ Bytes.ofNat f.header.slot.toNat ++ Bytes.ofString "] locals=" ++
    Bytes.ofNat f.header.locals.toNat ++ Bytes.ofString " params=" ++ Bytes.ofNat f.header.params.toNat ++
    Bytes.ofString " -> " ++ Bytes.ofNat f.header.returns.toNat ++ [0x0a] ++
    (f.code.toList.zipIdx.flatMap fun (i, pc) => number pc ++ i.text ++ [0x0a])

/-- The listing of a program. -/
def ofProgram (p : Program) : Bytes :=
  Bytes.ofString "globals (" ++ Bytes.ofNat p.globals.size ++ Bytes.ofString "):\n" ++
    (p.globals.toList.zipIdx.flatMap fun (g, n) => globalLine n g) ++
    Bytes.ofString "functions (" ++ Bytes.ofNat p.functions.size ++ Bytes.ofString "):\n" ++
    (p.functions.toList.zipIdx.flatMap fun (f, n) => functionLines p n f)

end OnePass.Listing

import BasicCompiler.Library.Cell
import BasicCompiler.Library.Helper

/-!
The library of a class: the helpers and cells that its code uses, in the order of their first use.
-/

namespace BasicCompiler

structure Library where
  requested : Array Helper
  cells : Array Cell
  deriving DecidableEq

namespace Library

def empty : Library := ⟨#[], #[]⟩

def isEmpty (library : Library) : Bool := library.requested.isEmpty

def requests (library : Library) (helper : Helper) : Bool := library.requested.contains helper

def registers (library : Library) (cell : Cell) : Bool := library.cells.contains cell

def request (library : Library) (helper : Helper) : Library :=
  if library.requests helper then library
  else { library with requested := library.requested.push helper }

def register (library : Library) (cell : Cell) : Library :=
  if library.registers cell then library
  else { library with cells := library.cells.push cell }

end Library

end BasicCompiler

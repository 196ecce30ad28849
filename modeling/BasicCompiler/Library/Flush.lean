import BasicCompiler.Library.Code
import BasicCompiler.Method.Emitter

/-!
Assembly of the helpers that a class requests. A helper may request others, which follow in the order
of their first request.
-/

namespace BasicCompiler

namespace Helper

def header (helper : Helper) (owner : String) : MethodHeader where
  owner := owner
  name := helper.spec.name
  descriptor := helper.spec.descriptor
  access := Access.privateBit ||| Access.staticBit
  maxStack := helper.spec.maxStack

end Helper

namespace Library

/-- Assembles the requested helpers from an index on. At most `remaining` are left, since a library
requests each helper of the catalogue once. -/
def flushFrom (owner : String) : Nat → Nat → BuildM (List MethodUnit)
  | 0, _ => return []
  | remaining + 1, next => do
    match (← get).library.requested[next]? with
    | none => return []
    | some helper =>
      let unit ← helper.draft.finish (helper.header owner)
      return unit :: (← flushFrom owner remaining (next + 1))

def flush (owner : String) : BuildM (List MethodUnit) := do
  let units ← flushFrom owner Helper.all.length 0
  Build.report (.helpersFlushed units.length)
  return units

end Library

end BasicCompiler

/-!
What happens while a class is built, as a trace reports it.
-/

namespace BasicCompiler

inductive TraceLevel where
  | debug
  | trace
  deriving DecidableEq, Repr

inductive Event where
  | compiling (statements : Nat) (className : String)
  | labelDefined (method label : String) (position : Nat)
  | fieldResolved (method label : String) (position : Nat) (offset : Int)
  | helperRequested (helper : String)
  | methodFinished (name descriptor : String) (size locals : Nat)
  | helpersFlushed (count : Nat)
  | classAssembled (name : String) (methods fields constants : Nat)
  | classWritten (path : String)
  deriving DecidableEq, Repr

namespace Event

def level : Event → TraceLevel
  | labelDefined _ _ _ => .trace
  | fieldResolved _ _ _ _ => .trace
  | _ => .debug

def message : Event → String
  | compiling statements className => s!"Compiling {statements} statements into class {className}"
  | labelDefined method label position => s!"{method}: label {label} at {position}"
  | fieldResolved method label position offset =>
    s!"{method}: patch at {position} to {label} = {offset}"
  | helperRequested helper => s!"Requested runtime helper {helper}"
  | methodFinished name descriptor size locals =>
    s!"Finished method {name}{descriptor}: {size} bytes, {locals} locals"
  | helpersFlushed count => s!"Flushed {count} runtime helpers"
  | classAssembled name methods fields constants =>
    s!"Assembled class {name}: {methods} methods, {fields} fields, {constants} constants"
  | classWritten path => s!"Wrote class file {path}"

end Event

end BasicCompiler

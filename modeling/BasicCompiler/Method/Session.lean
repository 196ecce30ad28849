import BasicCompiler.Method.Emitter

/-!
Methods that are assembled step by step, each step being assembled as soon as it is drafted.
-/

namespace BasicCompiler

structure Session where
  scope : Scope
  handlers : Array Handler
  emission : Emission

abbrev SessionM := ExceptT CompileError (StateM Session)

namespace Session

def start (build : Build) (header : MethodHeader) : Session :=
  ⟨Scope.ofDescriptor header.descriptor, #[], ⟨build, Emitter.new header⟩⟩

def position (session : Session) : Nat := session.emission.emitter.position

def step {α : Type} (action : DraftM α) : SessionM α := fun ⟨scope, handlers, emission⟩ =>
  match action.run ⟨scope, #[], handlers⟩ with
  | (value, ⟨scope, items, handlers⟩) =>
    match (Emission.emitItems items.toList).run emission with
    | (.ok _, emission) => (.ok value, ⟨scope, handlers, emission⟩)
    | (.error error, emission) => (.error error, ⟨scope, handlers, emission⟩)

def stepAll : List (DraftM Unit) → SessionM Unit
  | [] => return
  | first :: rest => do
    step first
    stepAll rest

def onBuild {α : Type} (action : BuildM α) : SessionM α := fun ⟨scope, handlers, emission⟩ =>
  match (Emission.onBuild action).run emission with
  | (result, emission) => (result, ⟨scope, handlers, emission⟩)

def finish (session : Session) : Except CompileError MethodUnit × Build :=
  let ⟨scope, handlers, ⟨build, emitter⟩⟩ := session
  (emitter.finish handlers.toList scope.nextSlot).run build

end Session

end BasicCompiler

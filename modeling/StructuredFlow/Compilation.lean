/-
# Compiling functions

A function is compiled in three steps: its contract is checked, it is prepared,
which classifies its variables and structures its control flow, and its code is
written.  A module is compiled step by step as well: no function is prepared
before all meet the contract, and none is written before all are prepared.  The
functions of a module share a registry and are written in order, so a compilation
that stops at a fault has compiled a first part of them.

What is reported on the way is a function of the outcome of each step.
-/

import StructuredFlow.Code.Emission
import StructuredFlow.Code.Text
import StructuredFlow.Function.Validation
import StructuredFlow.Structuring

namespace StructuredFlow

/-- Why a compilation stops. -/
inductive Fault
  /-- A function violates its contract. -/
  | contract (error : ContractError)
  /-- The code of a function cannot be written. -/
  | emission (error : EmissionError)
deriving DecidableEq, Repr

/-- What a fault reports. -/
def Fault.message : Fault → String
  | .contract error => error.message
  | .emission error => error.message

/-- A function ready for its code to be written. -/
structure Prepared where
  /-- The function. -/
  function : Function
  /-- The variables in the order of their definitions. -/
  defined : List Variable
  /-- The structured control flow. -/
  structured : Structured
  /-- What structuring reported. -/
  events : List Structuring.Event

namespace Prepared

/-- The variables by name. -/
def table (p : Prepared) : VariableTable := .ofList p.defined

/-- The labels as structuring left them. -/
def labels (p : Prepared) : List Label := p.function.withTransfers p.structured.transfers

/-- What is reported about the preparation. -/
def messages (p : Prepared) : List Message :=
  let f := p.function
  [⟨.debug, s!"preparing {f.name} ({f.labels.length} labels)"⟩] ++
    p.defined.map (fun v => ⟨.trace, v.text f.name⟩) ++
    p.events.flatMap Structuring.Event.messages ++
    [⟨.trace, s!"{f.name}: {p.table.length} variables, " ++
      s!"{p.structured.pruned.length} pruned labels"⟩]

end Prepared

/-- Classifies the variables of a function and structures its control flow, or
puts it into one dispatch if the settings say so. -/
def Function.prepare (f : Function) (config : Config) (types : TypeTable) : Prepared :=
  let build := if config.structured then Structuring.run else Structuring.flat
  let (structured, events) := build f.transfers f.entry
  { function := f, defined := f.definedVariables types, structured, events }

/-- A compiled function. -/
structure CompiledFunction where
  /-- The function. -/
  function : Function
  /-- Its variables by name. -/
  table : VariableTable
  /-- Its structured control flow. -/
  structured : Structured
  /-- The text of its code. -/
  code : String

/-- What is reported about a function when its code is written. -/
def CompiledFunction.message (f : CompiledFunction) : Message :=
  ⟨.trace, s!"emitted {f.function.name} ({f.code.utf8ByteSize} bytes)"⟩

/-- Writes the code of a prepared function. -/
def Prepared.compile (p : Prepared) (config : Config) (types : TypeTable) (registry : Registry) :
    Except EmissionError CompiledFunction × Registry :=
  let (code, registry) :=
    p.function.emit config types p.table p.labels p.structured.tree registry
  (code.map fun code => ⟨p.function, p.table, p.structured, code.text config.indent⟩, registry)

/-- Compiles one function with a registry of its own. -/
def Function.compile (f : Function) (config : Config) (types : TypeTable) :
    Except Fault CompiledFunction := do
  f.validate.mapError Fault.contract
  ((f.prepare config types).compile config types .empty).1.mapError Fault.emission

/-- The functions compiled up to a fault, if there was one. -/
structure Compilation where
  /-- The compiled functions in order. -/
  functions : List CompiledFunction := []
  /-- The indices given out. -/
  registry : Registry := .empty
  /-- What stopped the compilation. -/
  fault : Option Fault := none
  /-- What was reported. -/
  messages : List Message := []

namespace Compilation

/-- The compiled function of a name. -/
def function? (c : Compilation) (name : String) : Option CompiledFunction :=
  c.functions.find? fun compiled => compiled.function.name == name

/-- The code of all functions, separated by empty lines. -/
def code (c : Compilation) : String :=
  String.intercalate "\n" (c.functions.map CompiledFunction.code)

/-- Compiles prepared functions one after the other, after what is compiled. -/
def writeAll (config : Config) (types : TypeTable) (c : Compilation) :
    List Prepared → Compilation
  | [] => c
  | p :: rest =>
    match p.compile config types c.registry with
    | (.ok compiled, registry) =>
      writeAll config types
        { c with functions := c.functions ++ [compiled], registry,
                 messages := c.messages ++ [compiled.message] }
        rest
    | (.error error, registry) => { c with registry, fault := some (.emission error) }

end Compilation

namespace Module

/-- Checks the contract of every function and reports the first violation. -/
def validate (m : Module) : Except ContractError Unit :=
  m.functions.forM Function.validate

/-- Compiles every function of a module. -/
def compile (m : Module) (config : Config) : Compilation :=
  match m.validate with
  | .error error => { fault := some (.contract error) }
  | .ok () =>
    let prepared := m.functions.map fun f => f.prepare config m.types
    let manner := if config.parallel then "parallel" else "sequential"
    let start : Message := ⟨.debug, s!"compiling {m.functions.length} functions ({manner})"⟩
    Compilation.writeAll config m.types
      { messages := start :: prepared.flatMap Prepared.messages } prepared

end Module
end StructuredFlow

/-
# Settings of a compilation

| setting | value by default |
| --- | --- |
| `structured` | structure control flow; else each function is one dispatch |
| `parallel` | report functions as prepared in parallel |
| `annotate` | do not name labels in comments |
| `indent` | two blanks per level |
| `dispatchVariable` | `__label__` |
| `exceptionFlag` | `__THREW__` |
-/

namespace StructuredFlow

/-- How functions are compiled and written. -/
structure Config where
  /-- Control flow is structured. -/
  structured : Bool := true
  /-- Functions may be prepared in parallel; the outcome is the same. -/
  parallel : Bool := true
  /-- Labels are named in comments. -/
  annotate : Bool := false
  /-- What a level of nesting puts in front of a line. -/
  indent : String := "  "
  /-- The variable that a dispatch switches on. -/
  dispatchVariable : String := "__label__"
  /-- The flag that a call which unwinds sets. -/
  exceptionFlag : String := "__THREW__"
deriving DecidableEq, Repr, Inhabited

namespace Config

/-- The settings for looking at the outcome: labels named, functions in order. -/
def debug : Config := { annotate := true, parallel := false }

/-- The settings for leaving control flow unstructured. -/
def flat : Config := { structured := false }

/-- The settings known by a name. -/
def ofName? : String → Option Config
  | "default" | "new" => some {}
  | "debug" => some debug
  | "flat" => some flat
  | _ => none

end Config
end StructuredFlow

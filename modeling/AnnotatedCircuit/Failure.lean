import AnnotatedCircuit.Design.Json
import AnnotatedCircuit.Target.Kind

/-!
What can go wrong with one note or with one wire request.
-/

namespace AnnotatedCircuit

def EntityKind.text : EntityKind → String
  | circuit => "Circuit"
  | module => "Module"
  | externalModule => "ExtModule"
  | op tag => "Op(" ++ tag.text ++ ")"
  | port => "Port"

/-- Why a target path names nothing in the design. -/
inductive ResolveFault where
  | wrongCircuit (circuit design : String)
  | noModule (name : String)
  /-- A hop leaves from another module than the one that the hop before leads to. -/
  | brokenRoute (entered previous : String)
  | noInstance (name module : String)
  | notInstance (name module : String)
  | wrongLeaf (child module : String)
  | noEntity (name module : String)
  | indexedInstance
  | noPort (name : String)
  | untyped
  | noPart
  | noTarget
deriving DecidableEq, Repr

namespace ResolveFault

def message : ResolveFault → String
  | wrongCircuit circuit design =>
    "circuit '" ++ circuit ++ "' does not match design '" ++ design ++ "'"
  | noModule name => "module '" ++ name ++ "' does not exist"
  | brokenRoute entered previous =>
    "instance path enters '" ++ entered ++ "' but the previous instance is of '" ++ previous ++ "'"
  | noInstance name m => "cannot find instance '" ++ name ++ "' in module '" ++ m ++ "'"
  | notInstance name m => "'" ++ name ++ "' in '" ++ m ++ "' is not an instance"
  | wrongLeaf child m => "last instance is of '" ++ child ++ "', not '" ++ m ++ "'"
  | noEntity name m => "cannot find '" ++ name ++ "' in module '" ++ m ++ "'"
  | indexedInstance => "an instance cannot be indexed"
  | noPort name => "instance has no port '" ++ name ++ "'"
  | untyped => "component specified for a target without a type"
  | noPart => "no such sub-element"
  | noTarget => "annotation has no string 'target' field"

end ResolveFault

/-- Why a handler rejects a resolved target. -/
inductive ApplyFault where
  | unfit (kind : EntityKind)
  | noPin
  | partOfAggregate
  | noValue
  | secondSource (pin : String)
  | sinksWithoutSource (pin : String)
  /-- A reason that a handler gives in its own words. -/
  | custom (reason : String)
deriving DecidableEq, Repr

namespace ApplyFault

def message : ApplyFault → String
  | unfit kind => "cannot be applied to a target of kind " ++ kind.text
  | noPin => "missing string 'pin' field"
  | partOfAggregate => "cannot wire a sub-element of an aggregate"
  | noValue => "target does not carry a value"
  | secondSource pin => "pin '" ++ pin ++ "' already has a source"
  | sinksWithoutSource pin => "pin '" ++ pin ++ "' has sinks but no source"
  | custom reason => reason

end ApplyFault

inductive LowerError where
  /-- The path, as it was given, is no target path. -/
  | unreadablePath (path : String)
  | unresolved (path : String) (fault : ResolveFault)
  | classless
  | unhandledClass (className : String)
  | nonLocal (className target : String)
  | rejected (className : String) (fault : ApplyFault)
  /-- An end of a wire request lies in a module with more or fewer paths than one. -/
  | ambiguous (request : Nat) (module : String) (paths : Nat)
  | design (error : DesignError)
deriving DecidableEq, Repr

namespace LowerError

def message : LowerError → String
  | unreadablePath path => "cannot tokenize annotation path '" ++ path ++ "'"
  | unresolved path fault => "cannot resolve target '" ++ path ++ "': " ++ fault.message
  | classless => "annotation without a class"
  | unhandledClass className => "unhandled annotation class '" ++ className ++ "'"
  | nonLocal className target =>
    "target '" ++ target ++ "' is reached through an instance path, but annotation class '"
      ++ className ++ "' cannot be non-local"
  | rejected className fault =>
    "unable to apply annotation '" ++ className ++ "': " ++ fault.message
  | ambiguous request m paths =>
    "wiring problem " ++ toString request ++ ": module '" ++ m ++ "' has " ++ toString paths
      ++ " instance paths, expected exactly one"
  | design error => error.message

end LowerError

end AnnotatedCircuit

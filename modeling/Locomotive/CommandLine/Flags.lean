/-!
# Flags

A flag is one or two dashes and a name. Its value follows an equals sign or is the next
argument; a switch needs none. Flags end at the first argument that is none.
-/

namespace Locomotive

/-- What the command line asks for; empty texts where it does not say. -/
structure Flags where
  input : String := ""
  output : String := ""
  config : String := ""
  strict : Option Bool := none
  deriving DecidableEq, Repr

/-- Why the command line is wrong. -/
inductive FlagError where
  | badFlag (arg : String)
  | notDefined (name : String)
  | noValue (name : String)
  | badSwitch (name value : String)
  deriving DecidableEq, Repr

/-- The wording of an error. -/
def FlagError.text : FlagError → String
  | badFlag arg => "bad flag: " ++ arg
  | notDefined name => "flag provided but not defined: -" ++ name
  | noValue name => "flag needs an argument: -" ++ name
  | badSwitch name value => "invalid boolean value \"" ++ value ++ "\" for -" ++ name

namespace Flags

/-- The switch position that a text names. -/
def switch? (s : String) : Option Bool :=
  if ["1", "t", "T", "TRUE", "true", "True"].contains s then some true
  else if ["0", "f", "F", "FALSE", "false", "False"].contains s then some false
  else none

/-- The flags with a text changed, if the name is that of one. -/
def setText? (f : Flags) (name value : String) : Option Flags :=
  match name with
  | "in" => some { f with input := value }
  | "out" => some { f with output := value }
  | "config" => some { f with config := value }
  | _ => none

/-- The name of a flag and the value after an equals sign. -/
def nameValue (cs : List Char) : String × Option String :=
  (String.ofList (cs.takeWhile (· != '=')),
    (cs.dropWhile (· != '=')).tail?.map String.ofList)

/-- What follows the dashes of a flag, if the argument is one. -/
def afterDashes? (arg : String) : Option (List Char) :=
  match arg.toList with
  | ['-'] => none
  | ['-', '-'] => none
  | '-' :: '-' :: cs => some cs
  | '-' :: cs => some cs
  | _ => none

/-- The flags of a list of arguments, on top of those read before. -/
def read (f : Flags) : List String → Except FlagError Flags
  | [] => .ok f
  | arg :: args =>
    match afterDashes? arg with
    | none => .ok f
    | some cs =>
      if cs.head?.any fun c => c == '-' || c == '=' then .error (.badFlag arg)
      else
        match nameValue cs with
        | ("strict", none) => read { f with strict := some true } args
        | ("strict", some value) =>
          match switch? value with
          | some on => read { f with strict := some on } args
          | none => .error (.badSwitch "strict" value)
        | (name, some value) =>
          match f.setText? name value with
          | some f => read f args
          | none => .error (.notDefined name)
        | (name, none) =>
          match f.setText? name "", args with
          | none, _ => .error (.notDefined name)
          | some _, [] => .error (.noValue name)
          | some _, value :: args => read ((f.setText? name value).getD f) args

end Flags

end Locomotive

/-!
# Command lines

A command line is read from left to right. An argument with two hyphens in front names an option, an
argument with one hyphen is a row of letters that stand for options, and a value follows its option
in the same argument or in the next one. All other arguments are operands, and so is everything
behind two bare hyphens. Reading ends at the first argument that does not fit or that asks for
something else than a command.
-/
namespace GrammarEngine.Command

/-- Why a command line leads to no command. -/
inductive Halt where
  | usage
  | help
  | version
deriving Repr, DecidableEq

/-- How an option is used: a switch stands once, a counter any number of times, and values are
given once or many times. Some options end the reading. -/
inductive OptionKind where
  | switch
  | counter
  | value
  | values
  | halt (reason : Halt)
deriving Repr, DecidableEq

structure OptionRule where
  name : String
  letter : Option Char := none
  kind : OptionKind
  accepts : String → Bool := fun _ => true

def OptionRule.takesValue (o : OptionRule) : Bool :=
  match o.kind with
  | .value => true
  | .values => true
  | _ => false

/-- What has been read: options with their values in order, and operands. -/
structure Given where
  options : List (String × String) := []
  operands : List String := []
deriving Repr, DecidableEq

namespace Given

def has (g : Given) (name : String) : Bool := g.options.any fun o => o.1 == name

def values (g : Given) (name : String) : List String :=
  g.options.filterMap fun o => if o.1 == name then some o.2 else none

def value? (g : Given) (name : String) : Option String := g.options.lookup name

/-- Note an option, which must have an acceptable value and may have to be the first of its name. -/
def add (g : Given) (o : OptionRule) (value : String) : Except Halt Given :=
  let noted : Given := { g with options := g.options ++ [(o.name, value)] }
  match o.kind with
  | .halt reason => .error reason
  | .counter => .ok noted
  | .switch => if g.has o.name then .error .usage else .ok noted
  | .value => if g.has o.name || !o.accepts value then .error .usage else .ok noted
  | .values => if o.accepts value then .ok noted else .error .usage

end Given

/-- What a part of a command line may contain. Without a limit there may be any number of operands,
and none of them is empty; where operands end the part, the first one is left to what follows. -/
structure Signature where
  options : List OptionRule
  limit : Option Nat := none
  operandEnds : Bool := false

namespace Signature

def named? (s : Signature) (name : String) : Option OptionRule :=
  s.options.find? fun o => o.name == name

def lettered? (s : Signature) (c : Char) : Option OptionRule :=
  s.options.find? fun o => o.letter == some c

/-- Note an operand. -/
def operand (s : Signature) (g : Given) (value : String) : Except Halt Given :=
  if value == "" || s.limit.any fun n => n ≤ g.operands.length then .error .usage
  else .ok { g with operands := g.operands ++ [value] }

/-- Read a named option; the answer may be that its value is still to come. -/
def named (s : Signature) (g : Given) (name : String) (value : Option String) :
    Except Halt (Given × Option OptionRule) :=
  match s.named? name with
  | none => .error .usage
  | some o =>
    match value, o.takesValue with
    | some v, true => (g.add o v).map fun g => (g, none)
    | none, true => .ok (g, some o)
    | none, false => (g.add o "").map fun g => (g, none)
    | some _, false => .error .usage

/-- Read a row of letters. What follows a letter that takes a value is its value. -/
def letters (s : Signature) : Given → List Char → Except Halt (Given × Option OptionRule)
  | g, [] => .ok (g, none)
  | g, c :: rest =>
    match s.lettered? c with
    | none => .error .usage
    | some o =>
      if o.takesValue then
        match rest with
        | [] => .ok (g, some o)
        | '=' :: v => (g.add o (String.ofList v)).map fun g => (g, none)
        | v => (g.add o (String.ofList v)).map fun g => (g, none)
      else
        match g.add o "" with
        | .error e => .error e
        | .ok g => letters s g rest

/-- The forms of arguments. -/
inductive Argument where
  | ending
  | named (name : String) (value : Option String)
  | letters (letters : List Char)
  | operand
deriving Repr, DecidableEq

/-- The form of an argument. A single hyphen is an operand. -/
def argument (s : String) : Argument :=
  match s.toList with
  | ['-', '-'] => .ending
  | '-' :: '-' :: cs =>
    let name := String.ofList (cs.takeWhile (· != '='))
    match cs.dropWhile (· != '=') with
    | [] => .named name none
    | _ :: v => .named name (some (String.ofList v))
  | '-' :: c :: cs => .letters (c :: cs)
  | _ => .operand

/-- Read arguments while an option may be waiting for its value, which cannot look like an option.
The answer is what was given and what is left. -/
def read (s : Signature) :
    List String → Option OptionRule → Given → Except Halt (Given × List String)
  | [], none, g => .ok (g, [])
  | [], some _, _ => .error .usage
  | arg :: rest, some o, g =>
    match argument arg with
    | .operand => (g.add o arg).bind fun g => read s rest none g
    | _ => .error .usage
  | arg :: rest, none, g =>
    match argument arg with
    | .ending => (rest.foldlM s.operand g).map fun g => (g, [])
    | .named name value => (s.named g name value).bind fun (g, o) => read s rest o g
    | .letters cs => (s.letters g cs).bind fun (g, o) => read s rest o g
    | .operand =>
      if s.operandEnds then .ok (g, arg :: rest)
      else (s.operand g arg).bind fun g => read s rest none g

end Signature

theorem Given.value?_add_halt (g : Given) (o : OptionRule) (r : Halt) (v : String)
    (h : o.kind = .halt r) : g.add o v = .error r := by
  simp [Given.add, h]

end GrammarEngine.Command

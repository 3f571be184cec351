import GrammarCompletion.Command.FieldList
import GrammarCompletion.Command.Integer
import GrammarCompletion.Text.Quoted

/-!
# Flags of a command

A flag is written `--name value` or `--name=value`, anywhere among the arguments. A lone `--` ends
the flags.
-/

namespace GrammarCompletion

inductive FlagKind where
  | text
  | integer
  /-- Comma-separated texts; the lists of several such flags are joined. -/
  | list
  deriving DecidableEq

structure Flag where
  name : Bytes
  kind : FlagKind

inductive FlagError where
  | malformed (argument : Bytes)
  | unknown (name : Bytes)
  | unknownLetter (letter : UInt8) (letters : Bytes)
  | noValue (argument : Bytes)
  | badInteger (name value : Bytes) (fault : Integer.Fault)
  | badList (name value : Bytes) (fault : FieldList.Fault)

namespace FlagError

def quoteLetter (b : UInt8) : Bytes :=
  let escaped : Bytes :=
    if b = 0x27 then "\\'" else if b = 0x22 then "\"" else Quoted.escape (Bytes.ofCode b.toNat)
  ("'" : Bytes) ++ escaped ++ "'"

def badValue (name value reason : Bytes) : Bytes :=
  "invalid argument " ++ Quoted.quote value ++ " for \"--" ++ name ++ "\" flag: " ++ reason

def message : FlagError → Bytes
  | .malformed argument => "bad flag syntax: " ++ argument
  | .unknown name => "unknown flag: --" ++ name
  | .unknownLetter letter letters =>
    "unknown shorthand flag: " ++ quoteLetter letter ++ " in -" ++ letters
  | .noValue argument => "flag needs an argument: " ++ argument
  | .badInteger name value fault =>
    badValue name value ("strconv.ParseInt: parsing " ++ Quoted.quote value ++ ": " ++ fault.message)
  | .badList name value fault => badValue name value fault.message

end FlagError

/-- The flags of a call in the order in which they stand, and the other arguments. -/
structure Flags where
  values : List (Bytes × Bytes) := []
  arguments : List Bytes := []
  /-- Whether help was asked for. -/
  wantsHelp : Bool := false

namespace Flags

def dash : UInt8 := 0x2D
def equals : UInt8 := 0x3D

def check (flag : Flag) (value : Bytes) : Except FlagError Unit :=
  match flag.kind with
  | .text => .ok ()
  | .integer => ((Integer.parse value).mapError (.badInteger flag.name value)).map fun _ => ()
  | .list => ((FieldList.parse value).mapError (.badList flag.name value)).map fun _ => ()

def add (flags : Flags) (flag : Flag) (value : Bytes) : Except FlagError Flags := do
  check flag value
  return { flags with values := flags.values ++ [(flag.name, value)] }

/-- The name in a written flag, and its value if that is written behind an equals sign. -/
def split (written : Bytes) : Bytes × Option Bytes :=
  let name := written.takeWhile (· ≠ equals)
  (name, if written.contains equals then some (written.drop (name.length + 1)) else none)

def readFrom (known : List Flag) (flags : Flags) : List Bytes → Except FlagError Flags
  | [] => .ok flags
  | argument :: rest =>
    match argument with
    | 0x2D :: 0x2D :: written =>
      if written.isEmpty then .ok { flags with arguments := flags.arguments ++ rest }
      else if written.head? = some dash ∨ written.head? = some equals then
        .error (.malformed argument)
      else
        let (name, value?) := split written
        match known.find? fun f => f.name == name with
        | none =>
          if name = "help" then readFrom known { flags with wantsHelp := true } rest
          else .error (.unknown name)
        | some flag =>
          match value? with
          | some value =>
            match flags.add flag value with
            | .error e => .error e
            | .ok flags => readFrom known flags rest
          | none =>
            match rest with
            | [] => .error (.noValue argument)
            | value :: more =>
              match flags.add flag value with
              | .error e => .error e
              | .ok flags => readFrom known flags more
    | 0x2D :: letter :: letters =>
      if letter = 0x68 ∧ letters.isEmpty then readFrom known { flags with wantsHelp := true } rest
      else .error (.unknownLetter letter (letter :: letters))
    | _ => readFrom known { flags with arguments := flags.arguments ++ [argument] } rest

def read (known : List Flag) (arguments : List Bytes) : Except FlagError Flags :=
  readFrom known {} arguments

def isGiven (flags : Flags) (name : Bytes) : Bool := flags.values.any fun (n, _) => n == name

def all (flags : Flags) (name : Bytes) : List Bytes :=
  (flags.values.filter fun (n, _) => n == name).map Prod.snd

/-- The last value of a flag. -/
def text (flags : Flags) (name default : Bytes) : Bytes := (flags.all name).getLast?.getD default

def integer (flags : Flags) (name : Bytes) (default : Int) : Int :=
  match (flags.all name).getLast? with
  | none => default
  | some value => (Integer.parse value).toOption.getD default

def list (flags : Flags) (name : Bytes) : List Bytes :=
  (flags.all name).flatMap fun value => (FieldList.parse value).toOption.getD []

end Flags

end GrammarCompletion

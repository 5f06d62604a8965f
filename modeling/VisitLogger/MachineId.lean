import VisitLogger.Separators
import VisitLogger.Text

/-!
# The id of a machine

`Paths.machineId` derives an id from the host name once, and cleans the one that
it kept on every later call; `install_laptop.sh` derives it with `sed`. Swift's
pass over `--` halves a run of dashes, so that the id of a name with three foreign
characters in a row changes on the second call.
-/

namespace VisitLogger

open Separators

namespace Paths

abbrev dash : Byte := 45

/-! ## Characters -/

/-- The code point that Swift takes for a `K`. -/
def kelvinSign : Text := [0xE2, 0x84, 0xAA]

def isAllowed (b : Byte) : Bool :=
  (ascii "ABCDEFGHIJKLMNOPQRSTUVWXYZabcdefghijklmnopqrstuvwxyz0123456789_-").contains b

/-- `allowed.contains`; characters are compared up to canonical equivalence. -/
def allowedContains : Text → Bool
  | [b] => isAllowed b
  | c => c = kelvinSign

/-- CR LF is one character. -/
def joinCrLf : List Text → List Text
  | c :: d :: cs => if c = [cr] ∧ d = [nl] then (c ++ d) :: joinCrLf cs else c :: joinCrLf (d :: cs)
  | cs => cs

def IsPlain (c : Text) : Prop := (∃ b, b < 128 ∧ c = [b]) ∨ c = kelvinSign

/-- The characters of a string. Of Unicode's rules for them these matter: there is a
break on both sides of an ASCII character or a Kelvin sign, but for CR LF. -/
structure Characters where
  run : Text → List Text
  plain : ∀ cs, (∀ c ∈ cs, IsPlain c) → run cs.flatten = joinCrLf cs

/-! ## machineId -/

variable (characters : Characters)

def mapped (raw : Text) : Text := ((characters.run raw).map fun c =>
    if allowedContains c then c else [dash]).flatten

def sanitiseMachineId (raw : Text) : Text :=
  let collapsed := pairs dash (mapped characters raw)
  let trimmed := trim dash collapsed
  if trimmed = [] then ascii "unknown-host" else trimmed

structure HostNames where
  localizedName : Option Text
  name : Option Text
  hostName : Text
  deriving DecidableEq, Repr

def currentHostName (h : HostNames) : Text :=
  let names := (h.localizedName <|> h.name).getD []
  if names ≠ [] then names
  else if h.hostName ≠ [] then h.hostName
  else ascii "unknown-host"

def readMachineIdFromConfig (config : Option Text) : Option Text :=
  config.bind fun id => if id = [] then none else some (sanitiseMachineId characters id)

/-- The id, and the `machine_id` of the config file after the call. `persists` is
whether the file can be written. -/
def machineId (env config : Option Text) (h : HostNames) (persists : Bool) : Text × Option Text :=
  match env with
  | some (b :: bs) => (sanitiseMachineId characters (b :: bs), config)
  | _ =>
    match readMachineIdFromConfig characters config with
    | some fromConfig => (fromConfig, config)
    | none =>
      let sanitised := sanitiseMachineId characters (currentHostName h)
      (sanitised, if persists then some sanitised else config)

def laterIds : Option Text → List (HostNames × Bool) → List Text
  | _, [] => []
  | config, (h, persists) :: calls =>
    let r := machineId characters none config h persists
    r.1 :: laterIds r.2 calls

end Paths

/-! ## install_laptop.sh -/

namespace InstallLaptop

/-- A word that `echo` takes for options. -/
def isEchoOption : Text → Bool
  | 45 :: c :: cs => (c :: cs).all (ascii "neE").contains
  | _ => false

/-- The last `sed` takes one dash off each end. -/
def trimOne (s : Text) : Text :=
  let s := if s.head? = some Paths.dash then s.tail else s
  if s.getLast? = some Paths.dash then s.dropLast else s

def mapByte (b : Byte) : Byte := if Paths.isAllowed b then b else Paths.dash

def sedLine (line : Text) : Text := trimOne (squeeze Paths.dash (line.map mapByte))

/-- `MACHINE_ID`, from the name that `scutil` prints; a substitution takes the line
breaks at the end off. -/
def machineId (host : Text) : Text :=
  let rawHost := host.rdropWhile (· = nl)
  let id := if isEchoOption rawHost then [] else
    ([nl].intercalate ((rawHost.splitOn nl).map sedLine)).rdropWhile (· = nl)
  if id = [] then ascii "unknown-host" else id

end InstallLaptop

end VisitLogger

import MethodJit.Engine
import MethodJit.Toml.Document

/-!
# Settings

The settings of an engine, and their reading from a TOML document. What the document does not mention keeps
its default value; what the document mentions without need is refused. The names of settings are compared
without regard to case.
-/

namespace MethodJit

open Toml (Path Document)

structure Settings where
  enabled : Bool := true
  logLevel : String := "info"
  dumps : Bool := false
  /-- Longer code is interpreted; zero stands for no limit. -/
  maxCodeSize : Int := 0
deriving DecidableEq, Repr

/-- Why settings were refused. -/
inductive SettingsFault
  /-- No document, or a setting of another type. -/
  | malformed
  | unknownKeys (paths : List Path)
  | level (e : ThresholdFault)
  | negativeSize (n : Int)
deriving DecidableEq, Repr

/-- The texts of paths in order. -/
def sortedTexts (paths : List Path) : List String :=
  (paths.map Toml.pathText).mergeSort fun a b => a ≤ b

def SettingsFault.message : SettingsFault → String
  | .malformed => "malformed settings"
  | .unknownKeys paths => "unknown keys: " ++ String.intercalate ", " (sortedTexts paths)
  | .level e => e.message
  | .negativeSize n => s!"negative max-code-size: {n}"

/-- A character without regard to case. Two characters beyond ASCII are other forms of ASCII letters. -/
def foldCase (c : Char) : Char :=
  if c = 'ſ' then 's' else if c = 'K' then 'k' else c.toLower

/-- Whether a name is that of a setting, which is in lower case. -/
def namesSetting (name setting : String) : Bool := name.toList.map foldCase = setting.toList

namespace Settings

/-- Takes the value of a setting. There is no result if the value has another type; the flag tells whether
there is such a setting. -/
def set? (s : Settings) (name : String) (v : Toml.Value) : Option (Settings × Bool) :=
  if namesSetting name "enabled" then
    match v with
    | .scalar (.boolean b) => some ({ s with enabled := b }, true)
    | _ => none
  else if namesSetting name "log-level" then
    match v with
    | .scalar (.string text) => some ({ s with logLevel := text }, true)
    | _ => none
  else if namesSetting name "dump-ir" then
    match v with
    | .scalar (.boolean b) => some ({ s with dumps := b }, true)
    | _ => none
  else if namesSetting name "max-code-size" then
    match v with
    | .scalar (.integer n) => some ({ s with maxCodeSize := n.toInt }, true)
    | _ => none
  else some (s, false)

/-- Takes the settings of a table at a path, and adds the paths of those to the known ones. -/
def setAll? (path : Path) : Toml.Table → Settings × List Path → Option (Settings × List Path)
  | [], r => some r
  | (name, v) :: t, (s, known) => do
    let (s, isKnown) ← s.set? name v
    setAll? path t (s, if isKnown then (path ++ [name]) :: known else known)

/-- Takes the settings of the tables named `jit` in a document. -/
def ofTable? : Toml.Table → Settings × List Path → Option (Settings × List Path)
  | [], r => some r
  | (name, v) :: t, (s, known) =>
    if namesSetting name "jit" then
      match v with
      | .table sub => do ofTable? t (← setAll? [name] sub (s, [name] :: known))
      | _ => none
    else ofTable? t (s, known)

/-- The threshold of the log. -/
def threshold (s : Settings) : Except SettingsFault Int := (thresholdOfText s.logLevel).mapError .level

def check (s : Settings) : Except SettingsFault Settings := do
  let _ ← s.threshold
  if s.maxCodeSize < 0 then throw (.negativeSize s.maxCodeSize)
  pure s

def ofDocument (d : Document) : Except SettingsFault Settings :=
  match ofTable? d.root ({}, []) with
  | none => .error .malformed
  | some (s, known) =>
    let unknown := d.keys.filter fun path => !known.contains path
    if unknown = [] then s.check else .error (.unknownKeys unknown)

/-- Reads settings from the bytes of a document. -/
def read (bs : List UInt8) : Except SettingsFault Settings :=
  match Toml.read? bs with
  | none => .error .malformed
  | some d => ofDocument d

def engineConfig (s : Settings) : EngineConfig where
  enabled := s.enabled
  maxCodeSize := s.maxCodeSize
  dumps := s.dumps

end Settings

end MethodJit

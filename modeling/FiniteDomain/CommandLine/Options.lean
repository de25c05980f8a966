import FiniteDomain.Decimal.Reader
import FiniteDomain.Packing

/-!
# Options of the command line

The words of a command line, read as options.  An option is written `--name value` or `--name=value`,
each at most once; the one word that is no option is the size of the biggest square.  A word that
begins with a dash is never the value of the option before it.  After the word `--` there are no
options.
-/

namespace FiniteDomain.CommandLine

structure Options where
  size : Int
  formulation : Packing.Formulation
  heuristic : Packing.Heuristic
  fraction : Float
  maxNodes : Option Nat
  timeout : Option Nat
  verbosity : Level
deriving Repr

/-- The places of a command line that a word can fill. -/
inductive Slot
  | size
  | model
  | strategy
  | fraction
  | maxNodes
  | timeout
  | logLevel
deriving DecidableEq, Repr

namespace Slot

def ofName? (name : String) : Option Slot :=
  match name with
  | "model" => some model
  | "strategy" => some strategy
  | "p" => some fraction
  | "max-nodes" => some maxNodes
  | "timeout" => some timeout
  | "log-level" => some logLevel
  | _ => none

end Slot

abbrev Filled := List (Slot × String)

def fill (filled : Filled) (slot : Slot) (word : String) : Option Filled :=
  if filled.any fun entry => entry.1 = slot then none else some ((slot, word) :: filled)

def isDashed (word : String) : Bool :=
  word.toList.head? = some '-'

/-- A long option without its dashes: its name, and its value if there is a sign between them. -/
def splitName (cs : List Char) : String × Option String :=
  let name := String.ofList (cs.takeWhile (· ≠ '='))
  match cs.dropWhile (· ≠ '=') with
  | [] => (name, none)
  | _ :: value => (name, some (String.ofList value))

/-- What a word says: the value of a slot, a slot whose value is the next word, or the end of the
options. -/
inductive Word
  | value (slot : Slot) (word : String)
  | awaiting (slot : Slot)
  | endOfOptions
deriving DecidableEq, Repr

/-- Reads one word among the options.  A lone dash is a value. -/
def readWord (word : String) : Option Word :=
  match word.toList with
  | ['-', '-'] => some .endOfOptions
  | '-' :: '-' :: cs => do
    let (name, value) := splitName cs
    let slot ← Slot.ofName? name
    match value with
    | some value => return .value slot value
    | none => return .awaiting slot
  | ['-', 't'] => some (.awaiting .timeout)
  | '-' :: 't' :: '=' :: cs => some (.value .timeout (String.ofList cs))
  | '-' :: 't' :: cs => some (.value .timeout (String.ofList cs))
  | '-' :: _ :: _ => none
  | _ => some (.value .size word)

/-- Distributes words over slots. -/
def distribute : Filled → List String → Option Filled
  | filled, [] => some filled
  | filled, word :: rest => do
    match ← readWord word with
    | .value slot value => distribute (← fill filled slot value) rest
    | .awaiting slot =>
      match rest with
      | [] => none
      | value :: rest => if isDashed value then none else distribute (← fill filled slot value) rest
    | .endOfOptions => rest.foldlM (fun filled word => fill filled .size word) filled

def readFormulation : String → Option Packing.Formulation
  | "prop" => some .global
  | "decomposed" => some .pairwise
  | _ => none

def readHeuristic : String → Option Packing.Heuristic
  | "x" => some .columns
  | "big" => some .biggest
  | "left" => some .leftmost
  | "top" => some .highest
  | "interval" => some .sliceEach
  | "split" => some .sliceBoth
  | "bisect" => some .bisect
  | _ => none

/-- A level is written as its number or as its name, in any case of letters. -/
def readLevel (s : String) : Option Level :=
  match Numeral.read .unsignedLong s.toList with
  | some 1 => some .error
  | some 2 => some .warn
  | some 3 => some .info
  | some 4 => some .debug
  | some 5 => some .trace
  | _ =>
    match String.ofList (s.toList.map Char.toLower) with
    | "error" => some .error
    | "warn" => some .warn
    | "info" => some .info
    | "debug" => some .debug
    | "trace" => some .trace
    | _ => none

def readCount (s : String) : Option Nat :=
  (Numeral.read .unsignedLong s.toList).map Int.toNat

/-- The value of a slot, read from the word that fills it; a free slot has its default. -/
def slotValue {α : Type} (filled : Filled) (slot : Slot) (read : String → Option α) (default : α) :
    Option α :=
  match filled.lookup slot with
  | some word => read word
  | none => some default

namespace Options

/-- Reads the words of a command line, if they are well-formed. -/
def read (words : List String) : Option Options := do
  let filled ← distribute [] words
  return {
    size := ← slotValue filled .size (fun s => Numeral.read .word s.toList) 5
    formulation := ← slotValue filled .model readFormulation .global
    heuristic := ← slotValue filled .strategy readHeuristic .columns
    fraction := ← slotValue filled .fraction (fun s => Decimal.read s.toList) 0.5
    maxNodes := ← slotValue filled .maxNodes (fun s => (readCount s).map some) none
    timeout := ← slotValue filled .timeout (fun s => (readCount s).map some) none
    verbosity := ← slotValue filled .logLevel readLevel .info
  }

end Options

end FiniteDomain.CommandLine

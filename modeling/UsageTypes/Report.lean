import UsageTypes.Infer
import UsageTypes.Log

/-! What a run has to say while it infers: the records of its log, in the order in which the work is
done. -/

namespace UsageTypes

namespace Report

def checker (level : LogLevel) (message : String) : LogRecord := ⟨level, "paraminfer::checker", message⟩
def scanner (level : LogLevel) (message : String) : LogRecord := ⟨level, "paraminfer::scanner", message⟩
def collector (level : LogLevel) (message : String) : LogRecord := ⟨level, "paraminfer::collector", message⟩
def synthesizer (level : LogLevel) (message : String) : LogRecord :=
  ⟨level, "paraminfer::synthesizer", message⟩
def driver (level : LogLevel) (message : String) : LogRecord := ⟨level, "paraminfer::driver", message⟩

def cut : Cut → LogRecord
  | .type line => checker .trace ("type nested too deeply at line " ++ toString line)
  | .expr line => checker .trace ("expression nested too deeply at line " ++ toString line)

/-- What an event of the walk for a parameter has to say. -/
def event (name : String) (limit : Nat) : Event → LogRecord
  | .evidence e => collector .trace (name ++ ": " ++ e.display)
  | .tooDeep kind =>
    collector .debug ("depth limit reached at `" ++ kind ++ "` while collecting `" ++ name ++ "`")
  | .longChain =>
    collector .trace (name ++ ": access chain longer than " ++ toString limit ++ " segments")
  | .openArgument index callee =>
    collector .trace (name ++ ": argument " ++ toString index ++ " of `" ++ callee ++ "` is open")
  | .redeclared => collector .trace (name ++ ": skipping nested function that redeclares it")
  | .cut c => cut c

def conflict (path : Path) (m : Mark) : LogRecord :=
  synthesizer .debug ("conflicting types at " ++ path.display ++ ": "
    ++ String.intercalate ", " (m.names ++ m.claims.map Ty.display))

/-- What settling the type of a value has to say. -/
def settling (program : Program) (policy : ConflictPolicy) (path : Path) (m : Mark) : List LogRecord :=
  let references := m.names.flatMap fun n => (program.memberCuts n).map fun l => cut (.type l)
  if m.conflicting then
    conflict path m :: if policy = .keepFirst && m.nameFirst then references else []
  else if m.claims.isEmpty then references
  else []

mutual

/-- What reading a type off the evidence has to say. -/
def synthesis (program : Program) (policy : ConflictPolicy) (path : Path) : Trie → List LogRecord
  | .node m cs => synthesisAll program policy path cs ++ settling program policy path m

def synthesisAll (program : Program) (policy : ConflictPolicy) (path : Path) :
    List (String × Trie) → List LogRecord
  | [] => []
  | (name, t) :: cs =>
    synthesis program policy (path.child name) t ++ synthesisAll program policy path cs

end

def nameOr (name : Option String) : String := name.getD "<anonymous>"

/-- What the scan has to say about a declaration. -/
def scanned (program : Program) (function : Place) : List LogRecord :=
  (function.parameters.flatMap program.parameterCuts).map cut
    ++ if function.parameters.any program.isOpen then []
      else [scanner .trace ("skipping `" ++ nameOr function.tree.declaredName? ++ "`: no open parameters")]

/-- What inferring a parameter has to say. -/
def slot (program : Program) (settings : Settings) (function : Place) (s : Slot) : List LogRecord :=
  let limit := settings.options.maxDepth
  let evidence := program.slotEvidence limit function s
  let walk := match s.name, function.child? .body with
    | some name, some body =>
      (program.scopeCuts function).map cut ++ (program.events function name limit body).map (event name limit)
        ++ [collector .debug ("collected " ++ toString evidence.length ++ " evidence items for `" ++ name ++ "`")]
    | _, _ => []
  walk ++ synthesis program settings.options.conflictPolicy .root (Trie.ofEvidence settings.strategy evidence)
    ++ [driver .debug ("  " ++ s.name.getD s.declaration.text ++ ": "
      ++ (program.slotType settings function s).display ++ " from " ++ toString evidence.length
      ++ " evidence items")]

def function (program : Program) (settings : Settings) (c : Candidate) : List LogRecord :=
  driver .debug ("inferring `" ++ nameOr c.name ++ "`")
    :: c.openSlots.flatMap (slot program settings c.function)

/-- What inference over a whole program has to say. -/
def program (p : Program) (settings : Settings) (fileName : String) : List LogRecord :=
  let reports := p.infer settings
  let parameters := (reports.flatMap (·.parameters)).length
  [checker .trace ("indexed " ++ fileName ++ ": " ++ toString p.functionNames.eraseDups.length ++ " functions, "
      ++ toString (p.typeDeclarations.map (·.1)).eraseDups.length ++ " named types")]
    ++ p.declarations.flatMap (scanned p)
    ++ p.scan.flatMap (function p settings)
    ++ [driver .info (fileName ++ ": inferred " ++ toString parameters ++ " parameters in "
      ++ toString reports.length ++ " functions (" ++ settings.strategy.name ++ " strategy)")]

end Report

end UsageTypes

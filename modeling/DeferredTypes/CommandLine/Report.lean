import DeferredTypes.CommandLine.Arguments
import DeferredTypes.Dump.Reading
import DeferredTypes.Json.Writer
import DeferredTypes.Program

/-! What the command line prints: the selected symbols with the canonical texts of their final types. -/

namespace DeferredTypes.CommandLine

/-- A selected symbol and the text of its type. -/
structure Entry where
  path : Path
  rendered : String
  deriving DecidableEq

/-- Why nothing is printed. -/
inductive Failure
  /-- The file is missing or is no text. -/
  | read (file : String)
  /-- The file holds no dump. -/
  | parse (file : String)
  | resolve (path : Path) (error : ResolveError)
  | render (path : Path) (error : PreconditionError)
  | fault (fault : Fault)
  deriving DecidableEq

namespace Failure

/-- The text of the failure. -/
def message : Failure → String
  | .read file => "failed to read " ++ file
  | .parse file => "failed to parse " ++ file
  | .resolve path error => "failed to resolve " ++ path.display ++ ": " ++ error.message
  | .render path error => "failed to render " ++ path.display ++ ": " ++ error.message
  | .fault (.unallocated _) => "no such symbol"
  | .fault (.guard misuse) => misuse.message

/-- A budget that does not suffice has an exit code of its own. -/
def exitCode : Failure → UInt32
  | .resolve _ (.aborted ..) => 2
  | _ => 1

end Failure

/-- The symbols to print: all in order, or the named functions and then the methods of the named
classes. -/
def selected (graph : Graph) (arguments : Arguments) : List Path :=
  if arguments.selectsEverything then graph.symbols.toList.map Symbol.path
  else
    arguments.functions.map Path.function ++
      arguments.classes.flatMap fun owner =>
        (graph.methodsOf owner).filterMap fun (_, id) => graph.path? id

/-- The final type of a symbol, unknown if nobody declared it. -/
def finalType (path : Path) : Querying Ty := do
  match (← get).graph.lookup path with
  | some id => Program.tryResolve id
  | none => return .unknown

/-- The entry of a symbol, given the outcome of resolving it. -/
def entryOf (path : Path) : Except Halt Ty → Except Failure Entry
  | .error (.error error) => .error (.resolve path error)
  | .error (.fault fault) => .error (.fault fault)
  | .ok type =>
      match type.render with
      | .ok rendered => .ok ⟨path, rendered⟩
      | .error error => .error (.render path error)

/-- Resolves symbols one after the other, up to the first failure. -/
def resolveEntries : List Path → ExceptT Failure (StateM Program) (List Entry)
  | [] => return []
  | path :: rest => do
      let outcome ← (finalType path).run
      let entry ← (entryOf path outcome : Except Failure Entry)
      let entries ← resolveEntries rest
      return entry :: entries

def resolveSelected (arguments : Arguments) : ExceptT Failure (StateM Program) (List Entry) := do
  resolveEntries (selected (← get).graph arguments)

/-- The output. In a JSON object an entry with the displayed path of an earlier one takes its place. -/
def formatOutput (entries : List Entry) : Format → String
  | .text => String.join (entries.map fun entry => entry.path.display ++ ": " ++ entry.rendered ++ "\n")
  | .json =>
      let fields := OrderedMap.ofList
        (entries.map fun entry => (entry.path.display, Json.Value.string entry.rendered))
      (Json.Value.object fields.toList).text .pretty ++ "\n"

/-- The dump in a file, given what the file holds. -/
def loadDump (file : String) (content : Option ByteArray) : Except Failure Dump :=
  match content.bind String.fromUTF8? with
  | none => .error (.read file)
  | some text =>
      match Dump.ofJson? text with
      | none => .error (.parse file)
      | some dump => .ok dump

/-- The output for some arguments, given what their file holds. -/
def run (arguments : Arguments) (content : Option ByteArray) : Except Failure String := do
  let dump ← loadDump arguments.dump content
  let program := Program.start dump.toGraph arguments.profile
  let entries ← ((resolveSelected arguments).run.run program).1
  return formatOutput entries arguments.format

end DeferredTypes.CommandLine

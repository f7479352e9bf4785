/-
What a run of the inspector leaves behind: an exit code and two texts.

The code is zero after a report, one if there is nothing to report, and two if the
command line is misused.

* `respond` — the outcome of a run, where files are read by a given function.
-/
import EdgeDeletion.Config.Reader
import EdgeDeletion.Inspect.Command
import EdgeDeletion.Inspect.Report

namespace EdgeDeletion.Inspect

/-- The outcome of a run. -/
structure Outcome where
  exitCode : UInt32
  stdout : String
  stderr : String
deriving DecidableEq

/-- The name and the version of the program. -/
def versionLine : String := line ["shardgraph-inspect 0.1.0"]

def usage : String :=
  String.join
    [line ["Encode and decode shardgraph storage keys and batches"],
      line [],
      line ["Usage: shardgraph-inspect [--format text|json] COMMAND"],
      line [],
      line ["  edge-key --vid-len N --src ID --type T --dst ID"],
      line ["           [--part P] [--rank R] [--hex-ids] [--prefix]"],
      line ["  classify --vid-len N HEX"],
      line ["  decode-batch HEX"],
      line ["  check-config FILE"]]

/-- Reads a byte string in hexadecimal. -/
def hex (s : String) : Except InspectError Bytes := (Hex.decode (Bytes.ofText s)).mapError .hex

/-- Reads a vertex id, in hexadecimal or plain. -/
def vertexId (hexIds : Bool) (s : String) : Except InspectError Bytes :=
  if hexIds then hex s else .ok (Bytes.ofText s)

/-- Summarises what was read from a configuration file. -/
def checkConfig (path : String) : Except String String → Except InspectError Report
  | .error cause => .error (.unreadable path cause)
  | .ok text =>
    match Config.parse text with
    | none => .error (.malformed path)
    | some config =>
      match ConfigSummary.of? config with
      | .error e => .error (.storage e.toStorageError)
      | .ok s => .ok (.config s)

def Command.report [Monad m] (read : String → m (Except String String)) :
    Command → m (Except InspectError Report)
  | .edgeKey vidLen part src type rank dst hexIds prefixOnly =>
    pure do
      let src ← vertexId hexIds src
      let dst ← vertexId hexIds dst
      pure (.key (← Inspect.edgeKey vidLen part ⟨src, type, rank, dst⟩ prefixOnly))
  | .classify vidLen key =>
    pure do pure (.classification (Inspect.classify vidLen (← hex (Text.trim key))))
  | .decodeBatch payload =>
    pure do
      match Batch.decode (← hex (Text.trim payload)) with
      | .ok ops => pure (.batch ops)
      | .error e => .error (.storage e.toStorageError)
  | .checkConfig path => do pure (Inspect.checkConfig path (← read path))

def outcome (format : Format) : Except InspectError Report → Outcome
  | .error e => ⟨1, "", line ["error: ", e.message]⟩
  | .ok r =>
    match format with
    | .text => ⟨0, r.text, ""⟩
    | .json => ⟨0, line [r.json.text], ""⟩

def respond [Monad m] (read : String → m (Except String String)) (args : List String) :
    m Outcome :=
  match Invocation.parse args with
  | none => pure ⟨2, "", line ["error: the arguments are not understood"] ++ usage⟩
  | some .help => pure ⟨0, usage, ""⟩
  | some .version => pure ⟨0, versionLine, ""⟩
  | some (.run format command) => do pure (outcome format (← command.report read))

end EdgeDeletion.Inspect

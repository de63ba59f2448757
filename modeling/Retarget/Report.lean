import Retarget.ClassName
import Retarget.Json.Decode
import Retarget.Timestamp

/-!
The report of a run: who ran it on what, how many entries of each role were seen, which support
classes were added or left out, the digests before and after, and the times. Fields that hold
nothing are left out of its JSON form where reading takes a missing one for nothing.
-/
namespace Retarget

structure Tool where
  name : Text
  version : Option Text
  deriving DecidableEq, Repr

structure EntryCounts where
  directories : UInt64 := 0
  resources : UInt64 := 0
  overlayClasses : UInt64 := 0
  changedClasses : UInt64 := 0
  unchangedClasses : UInt64 := 0
  supportClasses : UInt64 := 0
  deriving DecidableEq, Repr

namespace EntryCounts

def classes (c : EntryCounts) : UInt64 :=
  c.changedClasses + c.unchangedClasses

def sourceEntries (c : EntryCounts) : UInt64 :=
  c.directories + c.resources + c.overlayClasses + c.classes

end EntryCounts

structure Report where
  schema : Text
  tool : Tool
  input : Text
  backup : Text
  targetVersion : UInt16
  counts : EntryCounts := {}
  /-- Support classes added to the result, in order. -/
  supportClasses : List ClassName := []
  /-- Support classes asked for but not copied, because copying was off. -/
  skippedSupportClasses : List ClassName := []
  inputSha256 : Option Text := none
  resultSha256 : Option Text := none
  startedAt : Timestamp
  endedAt : Option Timestamp := none
  deriving DecidableEq

namespace Report

def currentSchema : Text := "jardown.report.v1".toList

def start (tool : Tool) (input backup : Text) (targetVersion : UInt16) (now : Timestamp) :
    Report where
  schema := currentSchema
  tool := tool
  input := input
  backup := backup
  targetVersion := targetVersion
  startedAt := now

end Report

namespace Json

def ofText (t : Text) : Json := .str t

def ofUInt64 (n : UInt64) : Json := .int n.toNat

def ofUInt16 (n : UInt16) : Json := .int n.toNat

def ofClassName (name : ClassName) : Json := .str name.text

def ofClassNames (names : List ClassName) : Json := .arr (names.map ofClassName)

def ofTool (tool : Tool) : Json :=
  .obj (("name".toList, .str tool.name) :: optional "version" (tool.version.map .str))

def ofCounts (c : EntryCounts) : Json :=
  record [
    ("directories", ofUInt64 c.directories),
    ("resources", ofUInt64 c.resources),
    ("overlay_classes", ofUInt64 c.overlayClasses),
    ("rewritten_classes", ofUInt64 c.changedClasses),
    ("unchanged_classes", ofUInt64 c.unchangedClasses),
    ("support_classes", ofUInt64 c.supportClasses)]

def ofTimestamp (t : Timestamp) : Json := .str t.render

def ofReport (r : Report) : Json :=
  let fields : List (List (Text × Json)) := [
    [("schema".toList, .str r.schema), ("tool".toList, ofTool r.tool),
      ("input".toList, .str r.input), ("backup".toList, .str r.backup),
      ("target_version".toList, ofUInt16 r.targetVersion),
      ("counts".toList, ofCounts r.counts),
      ("support_classes".toList, ofClassNames r.supportClasses)],
    if r.skippedSupportClasses.isEmpty then []
    else [("skipped_support_classes".toList, ofClassNames r.skippedSupportClasses)],
    optional "original_sha256" (r.inputSha256.map .str),
    optional "result_sha256" (r.resultSha256.map .str),
    [("started_at".toList, ofTimestamp r.startedAt)],
    optional "ended_at" (r.endedAt.map ofTimestamp)]
  .obj fields.flatten

def toUInt64? (json : Json) : Option UInt64 :=
  (json.asNatBelow? UInt64.size).map UInt64.ofNat

def toUInt16? (json : Json) : Option UInt16 :=
  (json.asNatBelow? UInt16.size).map UInt16.ofNat

def toClassName? : Json → Option ClassName
  | .str text => (ClassName.ofText text).toOption
  | _ => none

def toTool? (json : Json) : Option Tool := do
  match ← recordFields? ["name", "version"] json with
  | [name, version] => return ⟨← required? asText? name, ← nullable? asText? version⟩
  | _ => none

def toCounts? (json : Json) : Option EntryCounts := do
  let names := ["directories", "resources", "overlay_classes", "rewritten_classes",
    "unchanged_classes", "support_classes"]
  match ← (← recordFields? names json).mapM (required? toUInt64?) with
  | [directories, resources, overlays, changed, unchanged, support] =>
    return ⟨directories, resources, overlays, changed, unchanged, support⟩
  | _ => none

def toTimestamp? : Json → Option Timestamp
  | .str text => Timestamp.parse? text
  | _ => none

def toReport? (json : Json) : Option Report := do
  let names := ["schema", "tool", "input", "backup", "target_version", "counts", "support_classes",
    "skipped_support_classes", "original_sha256", "result_sha256", "started_at", "ended_at"]
  match ← recordFields? names json with
  | [schemaText, tool, input, backup, target, counts, support, skipped, inputDigest,
      resultDigest, started, ended] =>
    return {
      schema := ← required? asText? schemaText
      tool := ← required? toTool? tool
      input := ← required? asText? input
      backup := ← required? asText? backup
      targetVersion := ← required? toUInt16? target
      counts := ← required? toCounts? counts
      supportClasses := ← withDefault? [] (listOf? toClassName?) support
      skippedSupportClasses := ← withDefault? [] (listOf? toClassName?) skipped
      inputSha256 := ← nullable? asText? inputDigest
      resultSha256 := ← nullable? asText? resultDigest
      startedAt := ← required? toTimestamp? started
      endedAt := ← nullable? toTimestamp? ended }
  | _ => none

end Json

end Retarget

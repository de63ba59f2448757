import Mathlib.Tactic.SplitIfs
import Retarget.Proofs.Json.Records
import Retarget.Proofs.Json.RoundTrip
import Retarget.Proofs.Timestamp.RoundTrip
import Retarget.Report

/-!
Reports and their JSON form. Every field is written by one rule and read by another: some are always
there, some are left out when they hold nothing, and a missing one is read as nothing or refused.
The rules are paired field by field. Where the times are moments the pairs agree on every report; a
report that was read has moments for its times, so what it is written as is read as it again.
-/
namespace Retarget

/-- The times of the report are moments, which are the times that are read from their own text. -/
structure Report.HasMoments (r : Report) : Prop where
  started : r.startedAt.IsMoment
  ended : ∀ t ∈ r.endedAt, t.IsMoment

namespace Json

variable {json : Json} {r : Report}

section Pieces

theorem toUInt64?_ofUInt64 (n : UInt64) : toUInt64? (ofUInt64 n) = some n := by
  have hbound : n.toNat < UInt64.size := n.toNat_lt
  simp [toUInt64?, ofUInt64, asNatBelow?, hbound]

theorem toUInt16?_ofUInt16 (n : UInt16) : toUInt16? (ofUInt16 n) = some n := by
  have hbound : n.toNat < UInt16.size := n.toNat_lt
  simp [toUInt16?, ofUInt16, asNatBelow?, hbound]

theorem toClassName?_ofClassName (name : ClassName) :
    toClassName? (ofClassName name) = some name := by
  rw [ofClassName, toClassName?, ClassName.ofText_text]
  rfl

/-- Only the text of a class name is read as a class name. -/
theorem toClassName?_eq_none (h : ∀ text, json = .str text → ¬ClassName.Valid text) :
    toClassName? json = none := by
  cases json with
  | str text =>
    rw [toClassName?, ClassName.ofText]
    split_ifs with hempty hsuffix hsegment
    · rfl
    · rfl
    · rfl
    · exact absurd ⟨hempty, hsuffix, hsegment⟩ (h text rfl)
  | _ => rfl

theorem toTimestamp?_ofTimestamp {t : Timestamp} (h : t.IsMoment) :
    toTimestamp? (ofTimestamp t) = some t :=
  Timestamp.parse?_render h

theorem isMoment_of_toTimestamp? {t : Timestamp} (h : toTimestamp? json = some t) :
    t.IsMoment := by
  cases json with
  | str text => exact Timestamp.isMoment_of_parse? h
  | _ => cases h

end Pieces

def toolFields (tool : Tool) : List (String × Option Json) :=
  [("name", some (.str tool.name)), ("version", tool.version.map .str)]

theorem ofTool_eq (tool : Tool) : ofTool tool = .obj (present (toolFields tool)) := by
  simp [ofTool, present, toolFields, optional]

theorem toTool?_ofTool (tool : Tool) : toTool? (ofTool tool) = some tool := by
  have hnodup : ((toolFields tool).map Prod.fst).Nodup :=
    show ["name", "version"].Nodup by decide
  have hvalues : recordFields? ["name", "version"] (ofTool tool) =
      some [some (.str tool.name), tool.version.map .str] := by
    rw [ofTool_eq]
    exact recordFields?_present hnodup
  have hversion : nullable? asText? (tool.version.map .str) = some tool.version :=
    nullable?_map (fun _ => nofun) (fun _ _ => rfl)
  simp [toTool?, hvalues, hversion, required?, asText?]

def countNames : List String :=
  ["directories", "resources", "overlay_classes", "rewritten_classes", "unchanged_classes",
    "support_classes"]

def countFields (c : EntryCounts) : List (String × Option Json) :=
  countNames.zip ([c.directories, c.resources, c.overlayClasses, c.changedClasses,
    c.unchangedClasses, c.supportClasses].map fun n => some (ofUInt64 n))

theorem ofCounts_eq (c : EntryCounts) : ofCounts c = .obj (present (countFields c)) := by
  simp [ofCounts, record, present, countFields, countNames, optional]

theorem toCounts?_ofCounts (c : EntryCounts) : toCounts? (ofCounts c) = some c := by
  have hnodup : ((countFields c).map Prod.fst).Nodup := show countNames.Nodup by decide
  have hvalues : recordFields? countNames (ofCounts c) = some ((countFields c).map Prod.snd) := by
    rw [ofCounts_eq]
    exact recordFields?_present hnodup
  have hread : ((countFields c).map Prod.snd).mapM (required? toUInt64?) =
      some [c.directories, c.resources, c.overlayClasses, c.changedClasses,
        c.unchangedClasses, c.supportClasses] := by
    simp [countFields, countNames, required?, toUInt64?_ofUInt64]
  unfold countNames at hvalues
  simp [toCounts?, hvalues, hread]

def reportNames : List String :=
  ["schema", "tool", "input", "backup", "target_version", "counts", "support_classes",
    "skipped_support_classes", "original_sha256", "result_sha256", "started_at", "ended_at"]

/-- What the fields of a report's JSON form hold, with nothing for those that are left out. -/
def reportValues (r : Report) : List (Option Json) :=
  [some (.str r.schema), some (ofTool r.tool), some (.str r.input), some (.str r.backup),
    some (ofUInt16 r.targetVersion), some (ofCounts r.counts),
    some (ofClassNames r.supportClasses),
    if r.skippedSupportClasses.isEmpty then none else some (ofClassNames r.skippedSupportClasses),
    r.inputSha256.map .str, r.resultSha256.map .str, some (ofTimestamp r.startedAt),
    r.endedAt.map ofTimestamp]

theorem ofReport_eq (r : Report) :
    ofReport r = .obj (present (reportNames.zip (reportValues r))) := by
  cases hskipped : r.skippedSupportClasses.isEmpty <;>
    simp [ofReport, present, reportNames, reportValues, optional, hskipped]

theorem recordFields?_ofReport (r : Report) :
    recordFields? reportNames (ofReport r) = some (reportValues r) := by
  have hnodup : ((reportNames.zip (reportValues r)).map Prod.fst).Nodup :=
    show reportNames.Nodup by decide
  rw [ofReport_eq]
  exact recordFields?_present hnodup

/-- The values of the fields are read as those of the report, each of them by its own rule. -/
inductive ReadsAs (json : Json) (r : Report) : Prop
  | fields {schemaText tool input backup target counts support skipped inputDigest resultDigest
      started ended : Option Json}
      (values_read : recordFields? reportNames json = some [schemaText, tool, input, backup, target,
        counts, support, skipped, inputDigest, resultDigest, started, ended])
      (schema_read : required? asText? schemaText = some r.schema)
      (tool_read : required? toTool? tool = some r.tool)
      (input_read : required? asText? input = some r.input)
      (backup_read : required? asText? backup = some r.backup)
      (target_read : required? toUInt16? target = some r.targetVersion)
      (counts_read : required? toCounts? counts = some r.counts)
      (support_read : withDefault? [] (listOf? toClassName?) support = some r.supportClasses)
      (skipped_read :
        withDefault? [] (listOf? toClassName?) skipped = some r.skippedSupportClasses)
      (inputDigest_read : nullable? asText? inputDigest = some r.inputSha256)
      (resultDigest_read : nullable? asText? resultDigest = some r.resultSha256)
      (started_read : required? toTimestamp? started = some r.startedAt)
      (ended_read : nullable? toTimestamp? ended = some r.endedAt) : ReadsAs json r

theorem toReport?_eq_some_iff : toReport? json = some r ↔ ReadsAs json r := by
  constructor
  · intro h
    unfold toReport? at h
    obtain ⟨values, hvalues, h⟩ := Option.bind_eq_some_iff.mp h
    split at h
    · simp only [Option.bind_eq_bind, Option.bind_eq_some_iff] at h
      obtain ⟨_, hschema, _, htool, _, hinput, _, hbackup, _, htarget, _, hcounts, _, hsupport, _,
        hskipped, _, hbefore, _, hafter, _, hstarted, _, hended, h⟩ := h
      cases h
      exact .fields hvalues hschema htool hinput hbackup htarget hcounts hsupport hskipped hbefore
        hafter hstarted hended
    · cases h
  · rintro ⟨hvalues, hschema, htool, hinput, hbackup, htarget, hcounts, hsupport, hskipped, hbefore,
      hafter, hstarted, hended⟩
    unfold reportNames at hvalues
    simp [toReport?, hvalues, hschema, htool, hinput, hbackup, htarget, hcounts, hsupport, hskipped,
      hbefore, hafter, hstarted, hended]

/-- A report whose times are moments is read from its JSON form. -/
theorem toReport?_ofReport (h : r.HasMoments) : toReport? (ofReport r) = some r := by
  -- An empty list is left out, and a missing one is read as empty.
  have hskipped : withDefault? [] (listOf? toClassName?)
      (if r.skippedSupportClasses.isEmpty then none
        else some (ofClassNames r.skippedSupportClasses)) = some r.skippedSupportClasses := by
    split
    · next hempty =>
      rw [List.isEmpty_iff.mp hempty]
      rfl
    · exact listOf?_map toClassName?_ofClassName _
  have hdigest : ∀ digest : Option Text, nullable? asText? (digest.map .str) = some digest :=
    fun _ => nullable?_map (fun _ => nofun) (fun _ _ => rfl)
  have hended : nullable? toTimestamp? (r.endedAt.map ofTimestamp) = some r.endedAt :=
    nullable?_map (fun _ => nofun) fun t ht => toTimestamp?_ofTimestamp (h.ended t ht)
  rw [toReport?_eq_some_iff]
  exact .fields (recordFields?_ofReport r) rfl (toTool?_ofTool r.tool) rfl rfl
    (toUInt16?_ofUInt16 r.targetVersion) (toCounts?_ofCounts r.counts)
    (listOf?_map toClassName?_ofClassName r.supportClasses) hskipped (hdigest r.inputSha256)
    (hdigest r.resultSha256) (toTimestamp?_ofTimestamp h.started) hended

/-- A report that was read has moments for its times. -/
theorem hasMoments_of_toReport? (h : toReport? json = some r) : r.HasMoments := by
  obtain ⟨-, -, -, -, -, -, -, -, -, -, -, hstarted, hended⟩ := toReport?_eq_some_iff.mp h
  constructor
  · obtain ⟨_, -, hread⟩ := Option.bind_eq_some_iff.mp hstarted
    exact isMoment_of_toTimestamp? hread
  · intro t ht
    rw [Option.mem_def.mp ht] at hended
    obtain ⟨_, hread⟩ := exists_of_nullable? hended
    exact isMoment_of_toTimestamp? hread

theorem toReport?_ofReport_eq_some_iff : toReport? (ofReport r) = some r ↔ r.HasMoments :=
  ⟨hasMoments_of_toReport?, toReport?_ofReport⟩

/-- A report with something other than a class name in one of its lists of them is not read. -/
theorem toReport?_eq_none {values : List (Option Json)} {name : String} {items : List Json}
    {item : Json} (hvalues : recordFields? reportNames json = some values)
    (hname : name ∈ ["support_classes", "skipped_support_classes"])
    (hfield : (name, some (.arr items)) ∈ reportNames.zip values) (hitem : item ∈ items)
    (hinvalid : ∀ text, item = .str text → ¬ClassName.Valid text) : toReport? json = none := by
  have hunread : ∀ names,
      withDefault? [] (listOf? toClassName?) (some (.arr items)) ≠ some names := by
    intro names hnames
    have hsome := isSome_of_listOf? hnames hitem
    rw [toClassName?_eq_none hinvalid] at hsome
    cases hsome
  rw [Option.eq_none_iff_forall_ne_some]
  intro r hr
  obtain @⟨_, _, _, _, _, _, support, skipped, _, _, _, _, hvalues', -, -, -, -, -, -, hsupport,
    hskipped, -⟩ := toReport?_eq_some_iff.mp hr
  cases hvalues.symm.trans hvalues'
  simp only [List.mem_cons, List.not_mem_nil, or_false] at hname
  rcases hname with rfl | rfl
  · have hlist : some (.arr items) = support := by simpa [reportNames] using hfield
    exact hunread _ (hlist ▸ hsupport)
  · have hlist : some (.arr items) = skipped := by simpa [reportNames] using hfield
    exact hunread _ (hlist ▸ hskipped)

section Texts

theorem whole_present {fields : List (String × Option Json)}
    (h : ∀ value, some value ∈ fields.map Prod.snd → Whole value) :
    Whole (.obj (present fields)) :=
  .obj fun _ hfield =>
    let ⟨_, hmem, _⟩ := mem_present.mp hfield
    h _ (List.mem_map.mpr ⟨_, hmem, rfl⟩)

theorem whole_ofTool (tool : Tool) : Whole (ofTool tool) := by
  rw [ofTool_eq]
  refine whole_present fun value hvalue => ?_
  simp only [toolFields, List.map_cons, List.map_nil, List.mem_cons, Option.some.injEq,
    List.not_mem_nil, or_false] at hvalue
  rcases hvalue with rfl | hversion
  · exact .str _
  · obtain ⟨_, -, rfl⟩ := Option.map_eq_some_iff.mp hversion.symm
    exact .str _

theorem whole_ofCounts (c : EntryCounts) : Whole (ofCounts c) := by
  rw [ofCounts_eq]
  refine whole_present fun value hvalue => ?_
  have hvalue : some value ∈ [c.directories, c.resources, c.overlayClasses, c.changedClasses,
    c.unchangedClasses, c.supportClasses].map fun n => some (ofUInt64 n) := hvalue
  obtain ⟨n, -, hn⟩ := List.mem_map.mp hvalue
  cases hn
  exact .int _

theorem whole_ofClassNames (names : List ClassName) : Whole (ofClassNames names) := by
  refine .arr fun item hitem => ?_
  obtain ⟨name, -, rfl⟩ := List.mem_map.mp hitem
  exact .str _

theorem whole_ofReport (r : Report) : Whole (ofReport r) := by
  rw [ofReport_eq]
  refine whole_present fun value hvalue => ?_
  have hvalue : some value ∈ reportValues r := hvalue
  simp only [reportValues, List.mem_cons, List.not_mem_nil, or_false, Option.some.injEq] at hvalue
  rcases hvalue with rfl | rfl | rfl | rfl | rfl | rfl | rfl | hskipped | hbefore | hafter | rfl |
    hended
  · exact .str _
  · exact whole_ofTool _
  · exact .str _
  · exact .str _
  · exact .int _
  · exact whole_ofCounts _
  · exact whole_ofClassNames _
  · split at hskipped
    · cases hskipped
    · cases hskipped
      exact whole_ofClassNames _
  · obtain ⟨_, -, rfl⟩ := Option.map_eq_some_iff.mp hbefore.symm
    exact .str _
  · obtain ⟨_, -, rfl⟩ := Option.map_eq_some_iff.mp hafter.symm
    exact .str _
  · exact .str _
  · obtain ⟨_, -, rfl⟩ := Option.map_eq_some_iff.mp hended.symm
    exact .str _

end Texts

def rewritten? (json : Json) : Option Json := (toReport? json).map ofReport

/-- Exactly the reports whose times are moments are read from their JSON form, whatever fields are
left out of it; and the text of that form, on one line or on many, stands for it. Any value that is
read as a report is read as the same report once it was written again, and writing it once more
changes nothing. A value with something other than a class name in one of its two lists of class
names is not read as a report. -/
theorem report_survives_json :
    (∀ r : Report, toReport? (ofReport r) = some r ↔ r.HasMoments) ∧
    (∀ r : Report, parse? (compress (ofReport r)) = some (ofReport r) ∧
      parse? (pretty (ofReport r)) = some (ofReport r)) ∧
    (∀ json written, rewritten? json = some written →
      toReport? written = toReport? json ∧ rewritten? written = some written) ∧
    (∀ json values name items item, recordFields? reportNames json = some values →
      name ∈ ["support_classes", "skipped_support_classes"] →
      (name, some (.arr items)) ∈ reportNames.zip values → item ∈ items →
      (∀ text, item = .str text → ¬ClassName.Valid text) → toReport? json = none) := by
  refine ⟨fun r => toReport?_ofReport_eq_some_iff, fun r => ⟨parse?_compress (whole_ofReport r),
    parse?_pretty (whole_ofReport r)⟩, ?_, fun json values name items item => toReport?_eq_none⟩
  intro json written hwritten
  obtain ⟨r, hread, rfl⟩ := Option.map_eq_some_iff.mp hwritten
  have hagain : toReport? (ofReport r) = some r :=
    toReport?_ofReport (hasMoments_of_toReport? hread)
  exact ⟨by rw [hagain, hread], by rw [rewritten?, hagain, Option.map_some]⟩

/-- A report with a tool of no version, a support class left out, no digests, and a leap second. -/
def leapReport : Report where
  schema := Report.currentSchema
  tool := ⟨"jardown".toList, none⟩
  input := "a.jar".toList
  backup := "a-bak.jar".toList
  targetVersion := 52
  counts := ⟨1, 0, 0, 2, 3, 0⟩
  skippedSupportClasses := [⟨"rt/Shim1".toList, by decide, by decide, by decide⟩]
  startedAt := ⟨1483228799, 1500000000⟩

/-- The fields of that report with records written as arrays, a null and a field of no meaning, and
the names that were left out as given. -/
def leapFields (skipped : List String) : Json := record [
  ("schema", .str Report.currentSchema),
  ("tool", .arr [.str "jardown".toList]),
  ("input", .str "a.jar".toList),
  ("backup", .str "a-bak.jar".toList),
  ("target_version", .int 52),
  ("counts", .arr [.int 1, .int 0, .int 0, .int 2, .int 3, .int 0]),
  ("skipped_support_classes", .arr (skipped.map ofString)),
  ("original_sha256", .null),
  ("unknown", .bool true),
  ("started_at", .str "2016-12-31T23:59:60.5Z".toList)]

theorem leap_report_survives :
    leapReport.HasMoments ∧ toReport? (ofReport leapReport) = some leapReport ∧
    parse? (pretty (ofReport leapReport)) = some (ofReport leapReport) ∧
    rewritten? (leapFields ["rt/Shim1"]) = some (ofReport leapReport) ∧
    toReport? (ofReport leapReport) = toReport? (leapFields ["rt/Shim1"]) ∧
    rewritten? (ofReport leapReport) = some (ofReport leapReport) ∧
    toReport? (leapFields ["rt/Shim1", "a//B"]) = none := by
  have hmoments : leapReport.HasMoments := ⟨by decide +kernel, nofun⟩
  have hread : toReport? (leapFields ["rt/Shim1"]) = some leapReport := by decide +kernel
  have hwritten : rewritten? (leapFields ["rt/Shim1"]) = some (ofReport leapReport) := by
    rw [rewritten?, hread, Option.map_some]
  have hinvalid : ∀ text, ofString "a//B" = .str text → ¬ClassName.Valid text := by
    rintro _ ⟨⟩ hvalid
    exact hvalid.no_empty_segment (by decide)
  obtain ⟨hsame, htext, hagain, hrefused⟩ := report_survives_json
  obtain ⟨hreport, hfixed⟩ := hagain _ _ hwritten
  have hspoiled : toReport? (leapFields ["rt/Shim1", "a//B"]) = none :=
    hrefused _ _ "skipped_support_classes" [ofString "rt/Shim1", ofString "a//B"] _ rfl (by decide)
      (List.mem_iff_getElem?.mpr ⟨7, rfl⟩) (List.mem_cons_of_mem _ List.mem_cons_self) hinvalid
  exact ⟨hmoments, (hsame leapReport).mpr hmoments, (htext leapReport).2, hwritten, hreport, hfixed,
    hspoiled⟩

end Json

end Retarget

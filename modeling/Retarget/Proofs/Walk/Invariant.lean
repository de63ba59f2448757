import Retarget.Downgrade.Run
import Retarget.Proofs.Classpath.History

/-!
What holds all along a walk. A step keeps a property of its state when the property holds after it,
whether it succeeded or failed, and the failure is of a given kind. With an engine that leaves files
alone the walk, and the copying of support classes after it, change nothing but the destination, and
the destination keeps whatever its two write operations keep.
-/
namespace Retarget

section Step

variable {ε σ α β : Type}

theorem bind_eq_ok {act : EStateM ε σ α} {next : α → EStateM ε σ β} {s s' : σ} {b : β} :
    (act >>= next) s = .ok b s' ↔ ∃ a middle, act s = .ok a middle ∧ next a middle = .ok b s' := by
  simp only [bind, EStateM.bind]
  cases act s with
  | ok a middle =>
    refine ⟨fun h => ⟨a, middle, rfl, h⟩, ?_⟩
    intro h
    obtain ⟨_, _, hact, h⟩ := h
    cases hact
    exact h
  | error fault middle => simp

theorem bind_eq_error {act : EStateM ε σ α} {next : α → EStateM ε σ β} {s s' : σ} {fault : ε} :
    (act >>= next) s = .error fault s' ↔
      act s = .error fault s' ∨
        ∃ a middle, act s = .ok a middle ∧ next a middle = .error fault s' := by
  simp only [bind, EStateM.bind]
  cases act s with
  | ok a middle =>
    refine ⟨fun h => Or.inr ⟨a, middle, rfl, h⟩, ?_⟩
    intro h
    rcases h with hact | ⟨_, _, hact, h⟩
    · cases hact
    · cases hact
      exact h
  | error fault middle => simp

/-- The state that a step leaves, whether it succeeds or fails. -/
def leaves (act : EStateM ε σ α) (s : σ) : σ :=
  match act s with
  | .ok _ s | .error _ s => s

/-- The property holds after the step if it held before, and failures are of one kind. -/
def Keeps (P : σ → Prop) (E : ε → Prop) (act : EStateM ε σ α) : Prop :=
  ∀ s, P s → match act s with
    | .ok _ s' => P s'
    | .error fault s' => E fault ∧ P s'

namespace Keeps

variable {P : σ → Prop} {E : ε → Prop}

theorem ok {act : EStateM ε σ α} (h : Keeps P E act) {s s' : σ} {a : α} (hs : P s)
    (hact : act s = .ok a s') : P s' := by
  have hkeep := h s hs
  rwa [hact] at hkeep

theorem error {act : EStateM ε σ α} (h : Keeps P E act) {s s' : σ} {fault : ε} (hs : P s)
    (hact : act s = .error fault s') : E fault ∧ P s' := by
  have hkeep := h s hs
  rwa [hact] at hkeep

theorem pure (a : α) : Keeps P E (pure a : EStateM ε σ α) :=
  fun _ hs => hs

theorem bind {act : EStateM ε σ α} {next : α → EStateM ε σ β} (h : Keeps P E act)
    (hnext : ∀ a, Keeps P E (next a)) : Keeps P E (act >>= next) := by
  intro s hs
  cases hact : act s with
  | error fault middle =>
    simp only [Bind.bind, EStateM.bind, hact]
    exact h.error hs hact
  | ok a middle =>
    simp only [Bind.bind, EStateM.bind, hact]
    exact hnext a middle (h.ok hs hact)

end Keeps

end Step

section Support

variable {W : Type} [Destination W] {Q : W → Prop}

structure KeptByWrites (Q : W → Prop) : Prop where
  createDirectory : ∀ path, Keeps Q (fun _ => True) (Destination.createDirectory (W := W) path)
  writeFile : ∀ path bytes, Keeps Q (fun _ => True) (Destination.writeFile (W := W) path bytes)

theorem keptByWrites_true : KeptByWrites fun _ : W => True := by
  refine ⟨fun path dest _ => ?_, fun path bytes dest _ => ?_⟩
  · cases Destination.createDirectory path dest <;> simp
  · cases Destination.writeFile path bytes dest <;> simp

theorem KeptByWrites.createMissing (h : KeptByWrites Q) (paths : List EntryPath) :
    Keeps Q (fun _ => True) (Destination.createMissing (W := W) paths) := by
  induction paths with
  | nil => exact Keeps.pure ()
  | cons path rest ih =>
    simp only [Destination.createMissing]
    apply Keeps.bind (fun _ hs => hs)
    intro dest
    split
    · exact Keeps.bind (h.createDirectory path) fun _ => ih
    · exact ih

theorem KeptByWrites.place (h : KeptByWrites Q) (path : EntryPath) (bytes : Bytes) :
    Keeps Q (fun _ => True) (Injection.place (W := W) path bytes) :=
  Keeps.bind (h.createMissing path.ancestors) fun _ => h.writeFile path bytes

theorem KeptByWrites.placeAll (h : KeptByWrites Q) (found : List (ClassName × Bytes)) :
    Keeps Q (fun _ => True) (Injection.placeAll (W := W) found) := by
  induction found with
  | nil => exact Keeps.pure []
  | cons entry rest ih =>
    intro dest hdest
    simp only [Injection.placeAll]
    by_cases hthere : Destination.contains dest (EntryPath.ofClass entry.1) = true
    · rw [if_pos hthere]
      exact ih dest hdest
    · rw [if_neg hthere]
      cases hplace : Injection.place (EntryPath.ofClass entry.1) entry.2 dest with
      | error fault middle => exact ⟨trivial, ((h.place _ _).error hdest hplace).2⟩
      | ok _ middle =>
        have hmiddle := (h.place _ _).ok hdest hplace
        cases hrest : Injection.placeAll rest middle with
        | error fault last => simpa only [hrest] using ih.error hmiddle hrest
        | ok added last => simpa only [hrest] using ih.ok hmiddle hrest

theorem KeptByWrites.inject (h : KeptByWrites Q) (required : NameSet) (catalog : Catalog)
    (fs : FileSystem) :
    Keeps Q (fun _ => True) (Injection.inject (W := W) required catalog fs) := by
  intro dest hdest
  simp only [Injection.inject]
  cases Injection.lookUpAll catalog fs required.names with
  | error fault => exact ⟨trivial, hdest⟩
  | ok found => exact h.placeAll found dest hdest

end Support

namespace Walk

variable {W : Type}

/-- All questions are answered as in `world`, and the destination has a property. -/
def Stays (world : World) (Q : W → Prop) (s : Session W) : Prop :=
  s.world.settled = world ∧ Q s.dest

theorem Stays.disk_eq {world : World} {Q : W → Prop} {s : Session W} (h : Stays world Q s) :
    s.world.disk = world.disk := by
  rw [← h.1]
  rfl

def LeavesWhole (fault : DowngradeError) : Prop := fault.isPartialSwap = false

variable {world : World} {Q : W → Prop} {source : Archive} {plan : WalkPlan}

theorem keeps_look {α : Type} {P : Session W → Prop} {ask : Session W → Except DowngradeError α}
    (h : ∀ s fault, ask s = .error fault → LeavesWhole fault) : Keeps P LeavesWhole (look ask) := by
  intro s hs
  simp only [look]
  cases hask : ask s with
  | ok a => exact hs
  | error fault => exact ⟨h s fault hask, hs⟩

theorem keeps_write {stage : Session W → Stage} {act : EStateM Fault W Unit}
    (h : Keeps Q (fun _ => True) act) : Keeps (Stays world Q) LeavesWhole (write stage act) := by
  intro s hs
  simp only [write]
  cases hact : act s.dest with
  | ok _ dest => exact ⟨hs.1, h.ok hs.2 hact⟩
  | error fault dest => exact ⟨rfl, hs.1, (h.error hs.2 hact).2⟩

theorem keeps_listEntries {P : Session W → Prop} :
    Keeps P LeavesWhole (listEntries (W := W) source) := by
  apply keeps_look
  intro s fault h
  cases hlist : source.list s.world.disk.files with
  | ok entries =>
    rw [hlist] at h
    cases h
  | error reason =>
    rw [hlist] at h
    cases h
    rfl

theorem keeps_readEntry {P : Session W → Prop} (path : EntryPath) :
    Keeps P LeavesWhole (readEntry (W := W) source path) := by
  apply keeps_look
  intro s fault h
  unfold entryBytes at h
  split at h
  · cases h
    rfl
  · cases h
    rfl
  · cases h

theorem keeps_transformClass (hengine : ∀ request, (plan.engine request).LeavesFiles)
    (name : ClassName) (bytes : Bytes) :
    Keeps (Stays world Q) LeavesWhole (transformClass (W := W) plan name bytes) := by
  intro s hs
  have hsettled := Dialogue.settled_run (hengine ⟨name, bytes, plan.target⟩) s.world
  rw [hs.1] at hsettled
  simp only [transformClass]
  rcases hrun : (plan.engine ⟨name, bytes, plan.target⟩).run s.world with ⟨outcome, later⟩
  rw [hrun] at hsettled
  cases outcome with
  | ok output => exact ⟨hsettled, hs.2⟩
  | error fault =>
    refine ⟨?_, hsettled, hs.2⟩
    cases fault <;> rfl

theorem keeps_transformJob (hengine : ∀ request, (plan.engine request).LeavesFiles)
    (job : ClassJob) : Keeps (Stays world Q) LeavesWhole (transformJob (W := W) source plan job) :=
  Keeps.bind (keeps_readEntry job.path) fun bytes => keeps_transformClass hengine job.name bytes

theorem keeps_transformAll (hengine : ∀ request, (plan.engine request).LeavesFiles)
    (jobs : List ClassJob) :
    Keeps (Stays world Q) LeavesWhole (transformAll (W := W) source plan jobs) := by
  induction jobs with
  | nil => exact Keeps.pure []
  | cons job rest ih =>
    exact Keeps.bind (keeps_transformJob hengine job) fun _ => Keeps.bind ih fun _ => Keeps.pure _

theorem keeps_takeTransformed {P : Session W → Prop} (results : List (EntryPath × Transformed))
    (job : ClassJob) : Keeps P LeavesWhole (takeTransformed (W := W) results job) := by
  apply keeps_look
  intro s fault h
  split at h
  · cases h
  · cases h
    rfl

variable [Destination W]

theorem keeps_copyEntry (hwrites : KeptByWrites Q) (path : EntryPath) :
    Keeps (Stays world Q) LeavesWhole (copyEntry (W := W) source path) :=
  Keeps.bind (keeps_readEntry path) fun bytes => keeps_write (hwrites.writeFile path bytes)

theorem keeps_takeEntry (hwrites : KeptByWrites Q) {classOf : ClassJob → Step W Transformed}
    (hclass : ∀ job, Keeps (Stays world Q) LeavesWhole (classOf job)) (counts : EntryCounts)
    (entry : ArchiveEntry) :
    Keeps (Stays world Q) LeavesWhole (takeEntry source classOf counts entry) := by
  unfold takeEntry
  split
  · exact Keeps.bind (keeps_write (hwrites.createDirectory entry.path)) fun _ => Keeps.pure _
  · exact Keeps.bind (keeps_copyEntry hwrites entry.path) fun _ => Keeps.pure _
  · exact Keeps.bind (keeps_copyEntry hwrites entry.path) fun _ => Keeps.pure _
  · exact Keeps.bind (hclass _) fun transformed =>
      Keeps.bind (keeps_write (hwrites.writeFile entry.path transformed.bytes)) fun _ =>
        Keeps.pure _

theorem keeps_takeAll (hwrites : KeptByWrites Q) {classOf : ClassJob → Step W Transformed}
    (hclass : ∀ job, Keeps (Stays world Q) LeavesWhole (classOf job)) (counts : EntryCounts)
    (entries : List ArchiveEntry) :
    Keeps (Stays world Q) LeavesWhole (takeAll source classOf counts entries) := by
  induction entries generalizing counts with
  | nil => exact Keeps.pure counts
  | cons entry rest ih =>
    exact Keeps.bind (keeps_takeEntry hwrites hclass counts entry) fun counts => ih counts

/-- A walk leaves files alone when its engine does, however many jobs it has. -/
theorem keeps_run (hengine : ∀ request, (plan.engine request).LeavesFiles)
    (hwrites : KeptByWrites Q) : Keeps (Stays world Q) LeavesWhole (run (W := W) source plan) := by
  apply Keeps.bind keeps_listEntries
  intro entries
  split
  · exact Keeps.bind (keeps_transformAll hengine _) fun results =>
      keeps_takeAll hwrites (keeps_takeTransformed results) {} entries
  · exact keeps_takeAll hwrites (keeps_transformJob hengine) {} entries

end Walk

end Retarget

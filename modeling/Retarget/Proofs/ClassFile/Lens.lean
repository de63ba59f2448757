import Retarget.Proofs.ClassFile.Header

/-!
The version as a part of the bytes that can be read and replaced. It is there exactly when eight
bytes are and the first four are the magic; then it can be replaced by any other. What was put there
last is what is read, and nothing outside of the four bytes after the magic is touched.
-/
namespace Retarget.ClassFile

variable {bytes result : Bytes} {version : ClassVersion}

/-- A part that may be missing: it can be replaced exactly where it can be read. The last of
several replacements is the one that is read, and putting back what was read changes nothing. -/
structure IsLens {σ α : Type} (get? : σ → Option α) (set? : σ → α → Option σ) : Prop where
  isSome_set : ∀ s a, (set? s a).isSome = (get? s).isSome
  get_set : ∀ s a s', set? s a = some s' → get? s' = some a
  set_set : ∀ s a b s', set? s a = some s' → set? s' b = set? s b
  set_get : ∀ s a, get? s = some a → set? s a = some s

/-- The version's two numbers stand behind the magic, the minor before the major. -/
theorem version?_eq_some_iff_take : version? bytes = some version ↔
    bytes.take 8 = magic ++ Bytes.bigEndian16 version.minor ++ Bytes.bigEndian16 version.major := by
  rw [version?_eq_some_iff]
  constructor
  · intro h
    obtain ⟨rest, rfl⟩ := h
    rfl
  · intro h
    refine ⟨bytes.drop 8, ?_⟩
    rw [withHeader, ← h, List.take_append_drop]

/-- Eight bytes that begin with the magic have a version, and no others have. -/
theorem isSome_version?_iff :
    (version? bytes).isSome = true ↔ 8 ≤ bytes.length ∧ bytes.take 4 = magic := by
  constructor
  · intro h
    obtain ⟨version, hversion⟩ := Option.isSome_iff_exists.mp h
    obtain ⟨rest, rfl⟩ := version?_eq_some_iff.mp hversion
    exact ⟨Nat.le_add_left 8 rest.length, rfl⟩
  · intro h
    obtain ⟨hlength, hmagic⟩ := h
    match bytes, hlength, hmagic with
    | m₀ :: m₁ :: m₂ :: m₃ :: n₀ :: n₁ :: v₀ :: v₁ :: rest, _, hmagic =>
      have hfour : [m₀, m₁, m₂, m₃] = magic := hmagic
      rw [version?, if_pos hfour, Option.isSome_some]

/-- A version is set by exchanging the header. -/
theorem setVersion?_eq_some_iff : setVersion? bytes version = some result ↔
    ∃ before rest, bytes = withHeader before rest ∧ result = withHeader version rest := by
  constructor
  · intro h
    cases hversion : version? bytes with
    | none => simp [setVersion?, hversion] at h
    | some before =>
      obtain ⟨rest, rfl⟩ := version?_eq_some_iff.mp hversion
      rw [setVersion?_withHeader, Option.some.injEq] at h
      exact ⟨before, rest, rfl, h.symm⟩
  · intro h
    obtain ⟨before, rest, rfl, rfl⟩ := h
    exact setVersion?_withHeader before version rest

theorem isLens_version : IsLens version? setVersion? where
  isSome_set bytes version := by
    cases h : version? bytes <;> simp [setVersion?, h]
  get_set bytes version result h := by
    obtain ⟨before, rest, rfl, rfl⟩ := setVersion?_eq_some_iff.mp h
    exact version?_withHeader version rest
  set_set bytes version other result h := by
    obtain ⟨before, rest, rfl, rfl⟩ := setVersion?_eq_some_iff.mp h
    rw [setVersion?_withHeader, setVersion?_withHeader]
  set_get bytes version h := by
    obtain ⟨rest, rfl⟩ := version?_eq_some_iff.mp h
    exact setVersion?_withHeader version version rest

/-- Setting a version keeps the length, the magic and what is behind the header. -/
theorem kept_of_setVersion? (h : setVersion? bytes version = some result) :
    result.length = bytes.length ∧ ∀ i, i < 4 ∨ 8 ≤ i → result[i]? = bytes[i]? := by
  obtain ⟨before, rest, rfl, rfl⟩ := setVersion?_eq_some_iff.mp h
  exact ⟨rfl, fun i hi => getElem?_withHeader version before rest hi⟩

/-- The version is a lens on byte strings. It is in those that have eight bytes and begin with the
magic, as the minor and then the major number, the higher byte first; and setting it leaves the
length and all other bytes as they are. -/
theorem version_is_lens :
    IsLens version? setVersion? ∧
    (∀ bytes, (version? bytes).isSome = true ↔ 8 ≤ bytes.length ∧ bytes.take 4 = magic) ∧
    (∀ bytes version, version? bytes = some version ↔ bytes.take 8 =
      magic ++ Bytes.bigEndian16 version.minor ++ Bytes.bigEndian16 version.major) ∧
    ∀ bytes version result, setVersion? bytes version = some result →
      result.length = bytes.length ∧ ∀ i, i < 4 ∨ 8 ≤ i → result[i]? = bytes[i]? :=
  ⟨isLens_version, fun _ => isSome_version?_iff, fun _ _ => version?_eq_some_iff_take,
    fun _ _ _ h => kept_of_setVersion? h⟩

end Retarget.ClassFile

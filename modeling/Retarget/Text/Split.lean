/-!
Text as its list of characters, cut at a separator and put together again. Cutting and joining
undo each other: joining the pieces of a text gives the text, and cutting a joined list gives the
list when it has a piece and no piece holds the separator.
-/
namespace Retarget

/-- Text is kept as its characters, so that its rules are rules about lists. -/
abbrev Text := List Char

namespace Text

/-- The pieces between the occurrences of `sep`; there is always at least one. -/
def splitOn (sep : Char) : Text → List Text
  | [] => [[]]
  | c :: cs =>
    if c = sep then [] :: splitOn sep cs
    else match splitOn sep cs with
      | [] => [[c]]
      | piece :: rest => (c :: piece) :: rest

/-- The pieces with one `sep` between neighbours. -/
def joinWith (sep : Char) : List Text → Text
  | [] => []
  | [piece] => piece
  | piece :: next :: rest => piece ++ sep :: joinWith sep (next :: rest)

/-- The part before the last `sep`, if there is one. -/
def beforeLast? (sep : Char) : Text → Option Text
  | [] => none
  | c :: cs =>
    match beforeLast? sep cs with
    | some before => some (c :: before)
    | none => if c = sep then some [] else none

/-- The parts before each `sep`, shortest first. -/
def partsBefore (sep : Char) : Text → List Text
  | [] => []
  | c :: cs =>
    let longer := (partsBefore sep cs).map (c :: ·)
    if c = sep then [] :: longer else longer

/-- The text without the `c`s at its two ends. -/
def trim (c : Char) (t : Text) : Text :=
  ((t.dropWhile (· == c)).reverse.dropWhile (· == c)).reverse

/-- The text before `tail`, if it ends in it. -/
def dropSuffix? (t tail : Text) : Option Text :=
  if tail.isSuffixOf t then some (t.take (t.length - tail.length)) else none

/-- Every `a` replaced by `b`. -/
def replace (a b : Char) (t : Text) : Text :=
  t.map fun c => if c = a then b else c

theorem splitOn_ne_nil (sep : Char) (t : Text) : splitOn sep t ≠ [] := by
  induction t with
  | nil => simp [splitOn]
  | cons c cs ih =>
    by_cases h : c = sep
    · simp [splitOn, h]
    · simp only [splitOn, h, if_false]
      cases splitOn sep cs <;> simp

theorem joinWith_splitOn (sep : Char) (t : Text) : joinWith sep (splitOn sep t) = t := by
  induction t with
  | nil => rfl
  | cons c cs ih =>
    cases hs : splitOn sep cs with
    | nil => exact absurd hs (splitOn_ne_nil sep cs)
    | cons p ps =>
      rw [hs] at ih
      by_cases h : c = sep
      · simp [splitOn, h, hs, joinWith, ih]
      · cases ps with
        | nil => simp_all [splitOn, joinWith]
        | cons q qs => simp_all [splitOn, joinWith]

theorem sep_not_mem_of_mem_splitOn {sep : Char} {t piece : Text} (h : piece ∈ splitOn sep t) :
    sep ∉ piece := by
  induction t generalizing piece with
  | nil => simp_all [splitOn]
  | cons c cs ih =>
    by_cases hc : c = sep
    · simp only [splitOn, hc, if_true, List.mem_cons] at h
      rcases h with rfl | h
      · simp
      · exact ih h
    · cases hs : splitOn sep cs with
      | nil => exact absurd hs (splitOn_ne_nil sep cs)
      | cons p ps =>
        simp only [splitOn, hc, hs, if_false, List.mem_cons] at h
        rcases h with rfl | h
        · simp only [List.mem_cons, not_or]
          exact ⟨fun e => hc e.symm, ih (by simp [hs])⟩
        · exact ih (by simp [hs, h])

theorem splitOn_append_sep (sep : Char) (t rest : Text) :
    splitOn sep (t ++ sep :: rest) = splitOn sep t ++ splitOn sep rest := by
  induction t with
  | nil => simp [splitOn]
  | cons c cs ih =>
    by_cases h : c = sep
    · simp [splitOn, h, ih]
    · cases hs : splitOn sep cs with
      | nil => exact absurd hs (splitOn_ne_nil sep cs)
      | cons p ps => simp [splitOn, h, ih, hs]

theorem splitOn_of_not_mem {sep : Char} {piece : Text} (h : sep ∉ piece) :
    splitOn sep piece = [piece] := by
  induction piece with
  | nil => rfl
  | cons c cs ih =>
    simp only [List.mem_cons, not_or] at h
    simp [splitOn, Ne.symm h.1, ih h.2]

theorem splitOn_joinWith {sep : Char} {pieces : List Text} (hne : pieces ≠ [])
    (h : ∀ piece ∈ pieces, sep ∉ piece) : splitOn sep (joinWith sep pieces) = pieces := by
  induction pieces with
  | nil => exact absurd rfl hne
  | cons p ps ih =>
    cases ps with
    | nil => exact splitOn_of_not_mem (h p (by simp))
    | cons q qs =>
      rw [joinWith, splitOn_append_sep, splitOn_of_not_mem (h p (by simp)), ih (by simp)]
      · rfl
      · exact fun piece hp => h piece (List.mem_cons_of_mem p hp)

theorem eq_append_of_beforeLast? {sep : Char} {t before : Text}
    (h : t.beforeLast? sep = some before) : t = before ++ sep :: t.drop (before.length + 1) := by
  induction t generalizing before with
  | nil => simp [beforeLast?] at h
  | cons c cs ih =>
    unfold beforeLast? at h
    split at h
    · next longer hlonger =>
      cases h
      simpa using ih hlonger
    · next hnone =>
      split at h
      · next hc =>
        cases h
        simp [hc]
      · simp at h

end Text

end Retarget

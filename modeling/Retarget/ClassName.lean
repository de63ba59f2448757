import Retarget.Text.Split

/-!
Class names in binary form: segments between slashes, nested classes keeping their dollar sign.
The three conditions on a name are part of the type, so a name that exists is a name that was
accepted.
-/
namespace Retarget

def classSuffix : Text := ".class".toList

/-- A name is not empty, does not carry the file ending, and has no empty segment. -/
structure ClassName.Valid (text : Text) : Prop where
  nonempty : text ≠ []
  no_suffix : ¬ classSuffix <:+ text
  no_empty_segment : [] ∉ Text.splitOn '/' text

/-- The fully qualified name of a class, such as `java/lang/Object`. -/
structure ClassName where
  text : Text
  valid : ClassName.Valid text
  deriving DecidableEq

inductive ClassNameError
  | empty
  | emptySegment (text : Text)
  | hasSuffix (text : Text)
  deriving DecidableEq, Repr

def ClassNameError.message : ClassNameError → String
  | .empty => "class name is empty"
  | .emptySegment text =>
    let name := String.ofList text
    s!"class name `{name}` has an empty segment"
  | .hasSuffix text =>
    let name := String.ofList text
    s!"class name `{name}` must not carry the .class suffix"

namespace ClassName

/-- A text in binary form is a name unless it is empty, carries the file ending, or has an empty
segment; the first of these that holds is the reason for refusing it. -/
def ofText (text : Text) : Except ClassNameError ClassName :=
  if h₁ : text = [] then .error .empty
  else if h₂ : classSuffix <:+ text then .error (.hasSuffix text)
  else if h₃ : [] ∈ Text.splitOn '/' text then .error (.emptySegment text)
  else .ok ⟨text, h₁, h₂, h₃⟩

def ofDotted (text : Text) : Except ClassNameError ClassName :=
  ofText (text.replace '.' '/')

def ofEntryText? (entry : Text) : Option ClassName :=
  match entry.dropSuffix? classSuffix with
  | none => none
  | some stem => (ofText stem).toOption

def entryText (name : ClassName) : Text :=
  name.text ++ classSuffix

def dotted (name : ClassName) : Text :=
  name.text.replace '/' '.'

/-- All but the last segment; the default package has none. -/
def package? (name : ClassName) : Option Text :=
  name.text.beforeLast? '/'

def segments (name : ClassName) : List Text :=
  name.text.splitOn '/'

def toString (name : ClassName) : String :=
  String.ofList name.text

instance : ToString ClassName := ⟨toString⟩

def precedes (a b : ClassName) : Bool :=
  decide (a.text < b.text)

theorem precedes_trans {a b c : ClassName} (hab : a.precedes b) (hbc : b.precedes c) :
    a.precedes c := by
  simp only [precedes, decide_eq_true_eq] at *
  exact List.lt_trans hab hbc

/-- Of two names one comes first. -/
theorem precedes_of_not_precedes {a b : ClassName} (hne : a ≠ b) (h : ¬ a.precedes b) :
    b.precedes a := by
  simp only [precedes, decide_eq_true_eq] at *
  refine Decidable.byContradiction fun h' => hne ?_
  have htext : a.text = b.text := List.le_antisymm (List.not_lt.1 h') (List.not_lt.1 h)
  obtain ⟨text, _⟩ := a
  obtain ⟨text', _⟩ := b
  cases htext
  rfl

theorem ofText_text (name : ClassName) : ofText name.text = .ok name := by
  obtain ⟨text, h₁, h₂, h₃⟩ := name
  simp [ofText, h₁, h₂, h₃]

end ClassName

end Retarget

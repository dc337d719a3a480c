/-!
# Letter case

Mnemonics, registers, directives and keywords are read without regard to the
case of ASCII letters.  Two texts are compared by their lower-case forms, and
every character that is not an ASCII letter stands for itself.

* `lower` is the lower-case form.
* `SameLetters` is equality of lower-case forms.
* `compareIgnoreCase` is the order of lower-case forms by code point, which is
  also their order by UTF-8 byte.
-/

namespace X86Listing.Text

/-- The text with every ASCII capital replaced by its small letter. -/
def lower (text : List Char) : List Char :=
  text.map Char.toLower

/-- Two texts are the same up to the case of ASCII letters. -/
def SameLetters (a b : List Char) : Prop :=
  lower a = lower b

instance (a b : List Char) : Decidable (SameLetters a b) :=
  inferInstanceAs (Decidable (lower a = lower b))

/-- The order of two texts up to the case of ASCII letters. -/
def compareIgnoreCase (a b : List Char) : Ordering :=
  compare (lower a) (lower b)

@[simp]
theorem lower_nil : lower [] = [] := rfl

@[simp]
theorem lower_cons (c : Char) (text : List Char) :
    lower (c :: text) = c.toLower :: lower text := rfl

@[simp]
theorem lower_append (a b : List Char) : lower (a ++ b) = lower a ++ lower b := by
  simp [lower]

@[simp]
theorem length_lower (text : List Char) : (lower text).length = text.length := by
  simp [lower]

theorem SameLetters.refl (a : List Char) : SameLetters a a := rfl

theorem SameLetters.symm {a b : List Char} (h : SameLetters a b) : SameLetters b a :=
  Eq.symm h

theorem SameLetters.trans {a b c : List Char} (h : SameLetters a b) (k : SameLetters b c) :
    SameLetters a c :=
  Eq.trans h k

end X86Listing.Text

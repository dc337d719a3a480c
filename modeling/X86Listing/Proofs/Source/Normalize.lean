import X86Listing.Proofs.Source.Locals

/-!
# Normal forms part by part

The normal form of a line is put together from the normal forms of its parts.
`NormalizesTo text text'` says that a part keeps its normal form wherever it stands, and that the
scanner leaves it outside of quotes.

* `normalizesTo_plain` and `normalizesTo_quoted`: a word and a quotation are their own normal
  forms.
* `NormalizesTo.append`: blanks between two parts become one space, and none stay none.
* `NormalizesTo.normalize_eq`: blanks at the ends of a line and a comment behind it are dropped.
-/

namespace X86Listing

open Text (isBlank)

/-! ## Definitions -/

/-- Spaces and tabs. -/
def IsGap (text : List Char) : Prop :=
  ∀ c ∈ text, c = ' ' ∨ c = '\t'

instance (text : List Char) : Decidable (IsGap text) :=
  List.decidableBAll _ _

/-- The end of a line that is dropped: nothing, or a comment. -/
def IsComment (text : List Char) : Prop :=
  ∀ c tail, text = c :: tail → c = ';'

/-- The normal form of a text, wherever the text stands outside of quotes.  Blanks before it
become one space, unless it comes first. -/
def NormalizesTo (text text' : List Char) : Prop :=
  ∀ started pending rest, normalizeFrom none started pending (text ++ rest) =
    (if pending && started then [' '] else []) ++ (text' ++ normalizeFrom none true false rest)

/-! ## Blanks -/

/-- Blanks are remembered, and nothing is written. -/
theorem IsGap.normalizeFrom_append {gap : List Char} (h : IsGap gap) (started pending : Bool)
    (rest : List Char) :
    normalizeFrom none started pending (gap ++ rest) =
      normalizeFrom none started (pending || !gap.isEmpty) rest := by
  induction gap generalizing pending with
  | nil => simp
  | cons c gap ih =>
    have hstep : normalizeFrom none started pending (c :: (gap ++ rest)) =
        normalizeFrom none started true (gap ++ rest) := by
      rcases h c List.mem_cons_self with rfl | rfl <;> rfl
    rw [List.cons_append, hstep, ih fun d hd => h d (List.mem_cons_of_mem c hd)]
    simp

theorem IsGap.isSpace {gap : List Char} (h : IsGap gap) : ∀ c ∈ gap, Text.isSpace c = true := by
  intro c hc
  rcases h c hc with rfl | rfl <;> rfl

theorem IsComment.normalizeFrom_eq {comment : List Char} (h : IsComment comment)
    (started pending : Bool) : normalizeFrom none started pending comment = [] := by
  cases comment with
  | nil => rfl
  | cons c tail =>
    rw [h c tail rfl]
    rfl

/-! ## Parts -/

/-- A word is its own normal form. -/
theorem normalizesTo_plain {word : List Char} (h : ∀ c ∈ word, IsPlain c) (hne : word ≠ []) :
    NormalizesTo word word := by
  intro started pending rest
  obtain ⟨c, word, rfl⟩ := List.exists_cons_of_ne_nil hne
  obtain ⟨hcomment, hreturn, hblank, hquote⟩ := h c List.mem_cons_self
  simp only [List.cons_append, normalizeFrom, if_neg hcomment, if_neg hreturn, hblank, hquote,
    Bool.false_eq_true, if_false,
    normalizeFrom_plain_append fun d hd => h d (List.mem_cons_of_mem c hd)]
  split <;> rfl

theorem normalizeFrom_quoted {quote : Char} {text : List Char} (h : quote ∉ text)
    (rest : List Char) :
    normalizeFrom (some quote) true false (text ++ quote :: rest) =
      text ++ quote :: normalizeFrom none true false rest := by
  induction text with
  | nil => simp [normalizeFrom]
  | cons c text ih =>
    obtain ⟨hc, htext⟩ : quote ≠ c ∧ quote ∉ text := by simpa using h
    simp only [List.cons_append, normalizeFrom, if_neg (Ne.symm hc), ih htext]

/-- A quotation is its own normal form, whatever stands in it. -/
theorem normalizesTo_quoted {quote : Char} {text : List Char} (hquote : isQuote quote = true)
    (h : quote ∉ text) :
    NormalizesTo (quote :: (text ++ [quote])) (quote :: (text ++ [quote])) := by
  intro started pending rest
  have hplain : quote ≠ ';' ∧ quote ≠ '\r' ∧ isBlank quote = false := by
    simp only [isQuote, Bool.or_eq_true, beq_iff_eq] at hquote
    rcases hquote with rfl | rfl <;> decide
  obtain ⟨hcomment, hreturn, hblank⟩ := hplain
  have hinside := normalizeFrom_quoted h rest
  simp only [List.cons_append, List.append_assoc, List.nil_append, normalizeFrom,
    if_neg hcomment, if_neg hreturn, hblank, hquote, Bool.false_eq_true, if_false, if_true,
    hinside]
  split <;> rfl

namespace NormalizesTo

variable {a a' b b' text text' gap : List Char}

/-- Blanks between two parts become a space. -/
theorem append (h : NormalizesTo a a') (k : NormalizesTo b b') (hgap : IsGap gap) :
    NormalizesTo (a ++ (gap ++ b)) (a' ++ ((if gap.isEmpty then [] else [' ']) ++ b')) := by
  intro started pending rest
  have hrest := k true (!gap.isEmpty) rest
  rw [List.append_assoc, List.append_assoc, h started pending, hgap.normalizeFrom_append,
    Bool.false_or, hrest]
  cases gap <;> simp

end NormalizesTo

end X86Listing

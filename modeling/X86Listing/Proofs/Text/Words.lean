import Mathlib.Data.List.Basic
import X86Listing.Text.Case

/-!
# Words and gaps

`words` cuts a text into its runs of letters and digits and what stands between them.  A text
that is put together from such runs (`Alternates`) is cut into these runs again
(`words_joined`), so there is only one way to put it together.
-/

namespace X86Listing.Text

/-- The words of a text, its runs of letters and digits, each with the characters up to the next
word.  The first word is empty if the text does not start with one. -/
def words : List Char → List (List Char × List Char)
  | [] => []
  | c :: rest =>
    match words rest with
    | [] => if c.isAlphanum then [([c], [])] else [([], [c])]
    | (word, gap) :: more =>
      if c.isAlphanum then (c :: word, gap) :: more
      else if word = [] then ([], c :: gap) :: more
      else ([], [c]) :: (word, gap) :: more

/-- The text of words and gaps. -/
def joined (parts : List (List Char × List Char)) : List Char :=
  parts.flatMap fun (word, gap) => word ++ gap

/-- Letters and digits, at least one. -/
def IsWord (word : List Char) : Prop :=
  word ≠ [] ∧ ∀ c ∈ word, c.isAlphanum = true

/-- Neither letters nor digits. -/
def IsSeparator (gap : List Char) : Prop :=
  ∀ c ∈ gap, c.isAlphanum = false

/-- Words with gaps between them.  Only the last gap may be empty. -/
inductive Alternates : List (List Char × List Char) → Prop where
  | nil : Alternates []
  | last {word gap : List Char} (hword : IsWord word) (hgap : IsSeparator gap) :
      Alternates [(word, gap)]
  | cons {word gap : List Char} {next : List Char × List Char}
      {more : List (List Char × List Char)} (hword : IsWord word) (hgap : IsSeparator gap)
      (hne : gap ≠ []) (hmore : Alternates (next :: more)) :
      Alternates ((word, gap) :: next :: more)

variable {word gap text : List Char} {more : List (List Char × List Char)}

/-- A word in front of a gap, or of nothing, is cut off. -/
theorem words_word (hword : IsWord word) (htext : words text = ([], gap) :: more) :
    words (word ++ text) = (word, gap) :: more := by
  obtain ⟨hne, hletters⟩ := hword
  induction word with
  | nil => exact absurd rfl hne
  | cons c word ih =>
    have hc : c.isAlphanum = true := hletters c List.mem_cons_self
    cases word with
    | nil => simp [words, htext, hc]
    | cons d word =>
      have htail := ih (by simp) fun e he => hletters e (List.mem_cons_of_mem c he)
      rw [List.cons_append, words, htail]
      simp [hc]

theorem words_of_isWord (hword : IsWord word) : words word = [(word, [])] := by
  obtain ⟨hne, hletters⟩ := hword
  induction word with
  | nil => exact absurd rfl hne
  | cons c word ih =>
    have hc : c.isAlphanum = true := hletters c List.mem_cons_self
    cases word with
    | nil => simp [words, hc]
    | cons d word =>
      have htail := ih (by simp) fun e he => hletters e (List.mem_cons_of_mem c he)
      rw [words, htail]
      simp [hc]

/-- A gap in front of a word, or of nothing, is cut off. -/
theorem words_gap (hgap : IsSeparator gap) (hne : gap ≠ [])
    (hmore : ∀ first ∈ (words text).head?, first.1 ≠ []) :
    words (gap ++ text) = ([], gap) :: words text := by
  induction gap with
  | nil => exact absurd rfl hne
  | cons c gap ih =>
    have hc : c.isAlphanum = false := hgap c List.mem_cons_self
    cases gap with
    | nil =>
      cases htext : words text with
      | nil => simp [words, htext, hc]
      | cons first more =>
        have hfirst := hmore first (by rw [htext]; rfl)
        simp [words, htext, hc, hfirst]
    | cons d gap =>
      have htail := ih (fun e he => hgap e (List.mem_cons_of_mem c he)) (by simp)
      rw [List.cons_append, words, htail]
      simp [hc]

/-- A text of words and gaps is cut into these words and gaps. -/
theorem words_joined {parts : List (List Char × List Char)} (h : Alternates parts) :
    words (joined parts) = parts := by
  induction h with
  | nil => rfl
  | @last word gap hword hgap =>
    have htext : joined [(word, gap)] = word ++ gap := by simp [joined]
    rw [htext]
    by_cases hne : gap = []
    · rw [hne, List.append_nil, words_of_isWord hword]
    · have hcut : words (gap ++ []) = ([], gap) :: words [] := words_gap hgap hne (by simp [words])
      rw [List.append_nil] at hcut
      exact words_word hword hcut
  | @cons word gap next more hword hgap hne hmore ih =>
    have htext : joined ((word, gap) :: next :: more) = word ++ (gap ++ joined (next :: more)) := by
      simp [joined]
    have hnext : next.1 ≠ [] := by
      cases hmore with
      | last hword => exact hword.1
      | cons hword => exact hword.1
    have hcut : words (gap ++ joined (next :: more)) = ([], gap) :: next :: more := by
      rw [words_gap hgap hne, ih]
      rw [ih]
      rintro first ⟨⟩
      exact hnext
    rw [htext]
    exact words_word hword hcut

end X86Listing.Text

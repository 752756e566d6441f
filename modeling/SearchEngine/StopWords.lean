/-
  `StopWords.java`: tokens to index words.

  `clean` drops the tokens that are stop words AS WRITTEN (the test is on the raw token, before
  any case folding) and stems the rest, in order, so that positions in its result are positions
  of index words.  It fails exactly when stemming one of the kept tokens fails.
-/
import SearchEngine.Porter
import Mathlib.Tactic.Common

namespace SearchEngine

open Text

namespace StopWords

/-- The lines of `stopwords.txt`. -/
def stopwordsTxt : List Str :=
  ["a", "about", "above", "after", "again", "against", "all", "am", "an", "and", "any", "are",
   "as", "at", "be", "because", "been", "before", "being", "below", "between", "both", "but",
   "by", "could", "did", "do", "does", "doing", "down", "during", "each", "few", "for", "from",
   "further", "had", "has", "have", "having", "he", "he'd", "he'll", "he's", "her", "here",
   "here's", "hers", "herself", "him", "himself", "his", "how", "how's", "i", "i'd", "i'll",
   "i'm", "i've", "if", "in", "into", "is", "it", "it's", "its", "itself", "let's", "me", "more",
   "most", "my", "myself", "nor", "of", "on", "once", "only", "or", "other", "ought", "our",
   "ours", "ourselves", "out", "over", "own", "same", "she", "she'd", "she'll", "she's",
   "should", "so", "some", "such", "than", "that", "that's", "the", "their", "theirs", "them",
   "themselves", "then", "there", "there's", "these", "they", "they'd", "they'll", "they're",
   "they've", "this", "those", "through", "to", "too", "under", "until", "up", "very", "was",
   "we", "we'd", "we'll", "we're", "we've", "were", "what", "what's", "when", "when's", "where",
   "where's", "which", "while", "who", "who's", "whom", "why", "why's", "with", "would", "you",
   "you'd", "you'll", "you're", "you've", "your", "yours", "yourself",
   "yourselves"].map String.toList

/-- `isStopWord`. -/
def isStopWord (E : Platform) (str : Str) : Bool := E.stopWords.contains str

/-- `stem`. -/
def stem (E : Platform) (str : Str) : Except Exn Str := Porter.stripAffixes E str

/-- `clean`: the stems of the tokens that are not stop words. -/
def clean (E : Platform) : List Str → Except Exn (List Str)
  | [] => .ok []
  | str :: rest =>
    if isStopWord E str then clean E rest
    else do
      let w ← stem E str
      let ws ← clean E rest
      pure (w :: ws)

end StopWords

/-- A platform whose tables are the ASCII ones, with the stop list of the repository. -/
def asciiPlatform : Platform where
  isLetterOrDigit := Char.isAlphanum
  toLowerCase := List.map Char.toLower
  hashOrder := id
  stopWords := StopWords.stopwordsTxt
  isLetterOrDigit_ascii := fun _ _ => rfl
  toLowerCase_ascii := fun _ _ => rfl
  toLowerCase_ne_nil := fun _ h => by simpa using h
  hashOrder_perm := fun l => List.Perm.refl l

/-- The word `ab` is no stop word, and its own stem. -/
theorem StopWords.clean_ab :
    ∀ n, clean asciiPlatform (List.replicate n "ab".toList) = .ok (List.replicate n "ab".toList)
  | 0 => rfl
  | n + 1 => by
    have hab : isStopWord asciiPlatform "ab".toList = false ∧
        stem asciiPlatform "ab".toList = .ok "ab".toList := by
      decide +kernel
    rw [List.replicate_succ, clean, hab.1, hab.2, clean_ab n]
    rfl

end SearchEngine

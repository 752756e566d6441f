/-
  `Porter.java`: the affix stripper that turns a token into an index word.

  Every `charAt` is an operation that can throw (`charAt`), so that the stripper's index
  arithmetic is visible: the chain is written in `Except Exn`, in the order in which the source
  reads the characters, `||` and `&&` included.  The out-parameter `NewString stem` of
  `hasSuffix` is read by its callers only after a `true`, so `hasSuffix` returns the stem in an
  `Option`.  Loops that copy `str.charAt(i)` for `i` below a bound are `take`s.

  `measure` and `containsVowel` walk an index through the string and look at the character
  before it; here the walk carries the previous character along (`none` at index `0`).
-/
import SearchEngine.Stores
import Mathlib.Tactic.Common

namespace SearchEngine

open Text

/-- What the Java platform and the installation supply: Unicode character data, the order in
    which a `HashMap` is iterated, and the lines of the stop-word file.  The laws are the
    documented behaviour the engine relies on; beyond ASCII the tables depend on the release. -/
structure Platform where
  /-- `Character.isLetterOrDigit` -/
  isLetterOrDigit : Char → Bool
  /-- `String.toLowerCase` -/
  toLowerCase : Str → Str
  /-- the order in which `map.entrySet()` yields the given entries -/
  hashOrder : List (Str × Nat) → List (Str × Nat)
  /-- the lines of `stopwords.txt` -/
  stopWords : List Str
  isLetterOrDigit_ascii : ∀ c : Char, c.toNat < 128 → isLetterOrDigit c = c.isAlphanum
  toLowerCase_ascii : ∀ s : Str, (∀ c ∈ s, c.toNat < 128) → toLowerCase s = s.map Char.toLower
  toLowerCase_ne_nil : ∀ s : Str, s ≠ [] → toLowerCase s ≠ []
  hashOrder_perm : ∀ l, (hashOrder l).Perm l

/-- `str.charAt(i)`. -/
def charAt (s : Str) (i : Int) : Except Exn Char :=
  if i < 0 then .error .stringIndexOutOfBounds
  else
    match s[i.toNat]? with
    | some c => .ok c
    | none => .error .stringIndexOutOfBounds

namespace Porter

/-- `Clean`: keep letters and digits.  The `Character` built from `charAt(0)` is only used to
    reach a static method, but building it throws on the empty string. -/
def Clean (E : Platform) (str : Str) : Except Exn Str := do
  let _ch ← charAt str 0
  pure (str.filter E.isLetterOrDigit)

/-- `hasSuffix`: the stem when `word` properly ends in `suffix`. -/
def hasSuffix (word suffix : Str) : Except Exn (Option Str) := do
  if word.length ≤ suffix.length then pure none
  else
    let differ ← if 1 < suffix.length then do
        let a ← charAt word (word.length - 2)
        let b ← charAt suffix (suffix.length - 2)
        pure (a != b)
      else pure false
    if differ then pure none
    else
      let stem := word.take (word.length - suffix.length)
      pure (if stem ++ suffix = word then some stem else none)

def isAEIOU (c : Char) : Bool := c == 'a' || c == 'e' || c == 'i' || c == 'o' || c == 'u'

/-- `vowel`: `y` counts as a vowel unless it follows one. -/
def vowel (ch prev : Char) : Bool :=
  if isAEIOU ch then true
  else if ch == 'y' then !isAEIOU prev
  else false

/-- The two inner loops of `measure`: `inVowels` tells which of them is running.  Leaving the
    second one before the end of the string is what counts. -/
def measureFrom : Bool → Option Char → Str → Nat
  | _, _, [] => 0
  | false, prev, c :: cs =>
    if vowel c (prev.getD 'a') then measureFrom true (some c) cs else measureFrom false (some c) cs
  | true, prev, c :: cs =>
    if vowel c (prev.getD '?') then measureFrom true (some c) cs
    else measureFrom false (some c) cs + 1

/-- `measure`: the number of vowel-consonant sequences. -/
def measure (stem : Str) : Nat := measureFrom false none stem

def containsVowelFrom : Option Char → Str → Bool
  | _, [] => false
  | prev, c :: cs => vowel c (prev.getD 'a') || containsVowelFrom (some c) cs

/-- `containsVowel`. -/
def containsVowel (word : Str) : Bool := containsVowelFrom none word

/-- `cvc`: consonant, vowel, consonant other than `w`, `x`, `y`, at the end. -/
def cvc (str : Str) : Except Exn Bool := do
  let length := str.length
  if length < 3 then pure false
  else
    let c1 ← charAt str (length - 1)
    let c2 ← charAt str (length - 2)
    if !vowel c1 c2 && c1 != 'w' && c1 != 'x' && c1 != 'y' then
      let c3 ← charAt str (length - 3)
      if vowel c2 c3 then
        if length = 3 then
          let c0 ← charAt str 0
          pure (!vowel c0 '?')
        else
          let c4 ← charAt str (length - 4)
          pure (!vowel c3 c4)
      else pure false
    else pure false

/-- The first suffix of the list the word has (the `||` chains). -/
def hasAnySuffix (word : Str) : List Str → Except Exn (Option Str)
  | [] => pure none
  | suffix :: rest => do
    match ← hasSuffix word suffix with
    | some stem => pure (some stem)
    | none => hasAnySuffix word rest

/-- The plural part of `step1`; `true` says that `step1` returns at once. -/
def step1Plural (str : Str) : Except Exn (Str × Bool) := do
  if (← charAt str (str.length - 1)) == 's' then
    match ← hasAnySuffix str ["sses".toList, "ies".toList] with
    | some _ => pure (str.take (str.length - 2), false)
    | none =>
      if str.length = 1 then pure ([], true)
      else
        let c ← charAt str (str.length - 2)
        pure (if c != 's' then str.take (str.length - 1) else str, false)
  else pure (str, false)

/-- The clean-up behind a removed `ed` or `ing`. -/
def step1Repair (str : Str) : Except Exn Str := do
  match ← hasAnySuffix str ["at".toList, "bl".toList, "iz".toList] with
  | some _ => pure (str ++ ['e'])
  | none =>
    let c1 ← charAt str (str.length - 1)
    let c2 ← charAt str (str.length - 2)
    if c1 == c2 && c1 != 'l' && c1 != 's' && c1 != 'z' then pure (str.take (str.length - 1))
    else if measure str = 1 then do
      pure (if ← cvc str then str ++ ['e'] else str)
    else pure str

/-- The `eed`, `ed`, `ing` part of `step1`; `true` says that `step1` returns at once. -/
def step1Past (str : Str) : Except Exn (Str × Bool) := do
  match ← hasSuffix str "eed".toList with
  | some stem => pure (if 0 < measure stem then str.take (str.length - 1) else str, false)
  | none =>
    match ← hasAnySuffix str ["ed".toList, "ing".toList] with
    | none => pure (str, false)
    | some stem =>
      if containsVowel stem then
        if stem.length = 1 then pure (stem, true)
        else do
          let str ← step1Repair stem
          pure (str, false)
      else pure (str, false)

/-- The `y` part of `step1`. -/
def step1Y (str : Str) : Except Exn Str := do
  match ← hasSuffix str ['y'] with
  | some stem => pure (if containsVowel stem then str.take (str.length - 1) ++ ['i'] else str)
  | none => pure str

def step1 (str : Str) : Except Exn Str := do
  let (str, done) ← step1Plural str
  if done then pure str
  else
    let (str, done) ← step1Past str
    if done then pure str else step1Y str

/-- The table loops of `step2`, `step3` and `step4`: replace the first suffix that is there and
    leaves a stem of measure above the bound. -/
def replaceSuffix (bound : Nat) (str : Str) : List (Str × Str) → Except Exn Str
  | [] => pure str
  | (suffix, replacement) :: rest => do
    match ← hasSuffix str suffix with
    | some stem =>
      if bound < measure stem then pure (stem ++ replacement) else replaceSuffix bound str rest
    | none => replaceSuffix bound str rest

def step2Table : List (Str × Str) :=
  [("ational".toList, "ate".toList), ("tional".toList, "tion".toList),
   ("enci".toList, "ence".toList), ("anci".toList, "ance".toList),
   ("izer".toList, "ize".toList), ("iser".toList, "ize".toList),
   ("abli".toList, "able".toList), ("alli".toList, "al".toList),
   ("entli".toList, "ent".toList), ("eli".toList, "e".toList),
   ("ousli".toList, "ous".toList), ("ization".toList, "ize".toList),
   ("isation".toList, "ize".toList), ("ation".toList, "ate".toList),
   ("ator".toList, "ate".toList), ("alism".toList, "al".toList),
   ("iveness".toList, "ive".toList), ("fulness".toList, "ful".toList),
   ("ousness".toList, "ous".toList), ("aliti".toList, "al".toList),
   ("iviti".toList, "ive".toList), ("biliti".toList, "ble".toList)]

def step3Table : List (Str × Str) :=
  [("icate".toList, "ic".toList), ("ative".toList, []), ("alize".toList, "al".toList),
   ("alise".toList, "al".toList), ("iciti".toList, "ic".toList), ("ical".toList, "ic".toList),
   ("ful".toList, []), ("ness".toList, [])]

def step4Table : List (Str × Str) :=
  ["al", "ance", "ence", "er", "ic", "able", "ible", "ant", "ement", "ment", "ent", "sion",
   "tion", "ou", "ism", "ate", "iti", "ous", "ive", "ize", "ise"].map (fun s => (s.toList, []))

def step2 (str : Str) : Except Exn Str := replaceSuffix 0 str step2Table

def step3 (str : Str) : Except Exn Str := replaceSuffix 0 str step3Table

def step4 (str : Str) : Except Exn Str := replaceSuffix 1 str step4Table

/-- The final `e` of `step5`. -/
def step5E (str : Str) : Except Exn Str := do
  if (← charAt str (str.length - 1)) == 'e' then
    if 1 < measure str then pure (str.take (str.length - 1))
    else if measure str = 1 then do
      let stem := str.take (str.length - 1)
      pure (if ← cvc stem then str else stem)
    else pure str
  else pure str

def step5 (str : Str) : Except Exn Str := do
  let str ← step5E str
  if str.length = 1 then pure str
  else
    if (← charAt str (str.length - 1)) == 'l' then
      if (← charAt str (str.length - 2)) == 'l' then
        pure (if 1 < measure str then str.take (str.length - 1) else str)
      else pure str
    else pure str

/-- `stripPrefixes`: drop the first listed prefix the word starts with. -/
def stripPrefixes (str : Str) : Str :=
  match ["kilo".toList, "micro".toList, "milli".toList, "intra".toList, "ultra".toList,
      "mega".toList, "nano".toList, "pico".toList, "pseudo".toList].find? (·.isPrefixOf str) with
  | some p => str.drop p.length
  | none => str

/-- `if ( str.length() >= 1 ) str = step( str );` -/
def guarded (step : Str → Except Exn Str) (str : Str) : Except Exn Str :=
  if 1 ≤ str.length then step str else pure str

def stripSuffixes (str : Str) : Except Exn Str := do
  let str ← step1 str
  let str ← guarded step2 str
  let str ← guarded step3 str
  let str ← guarded step4 str
  guarded step5 str

/-- `stripAffixes`.  The tests `str != ""` compare references; at both places the string is the
    literal `""` exactly when it is empty. -/
def stripAffixes (E : Platform) (str : Str) : Except Exn Str := do
  let str ← Clean E (E.toLowerCase str)
  if str ≠ [] ∧ 2 < str.length then
    let str := stripPrefixes str
    if str ≠ [] then stripSuffixes str else pure str
  else pure str

end Porter

end SearchEngine

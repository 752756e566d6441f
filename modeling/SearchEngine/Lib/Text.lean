/-
  Strings as character lists, and the `java.lang.String` operations a text format leans on.

  A Java `String` is the list of its characters.  Three library calls carry the parsing, and
  each is given here as a STRUCTURAL recursion on the haystack, so that concrete runs evaluate
  inside the kernel:

  * `indexOf pat s`   — the least index at which `pat` starts in `s` (`none` for Java's `-1`);
  * `splitWs s`       — `s.split("\\s+")`: cut at maximal runs of white space;
  * `splitOn sep s`   — `s.split(sep)` for a literal separator: cut at the leftmost
                        non-overlapping occurrences of `sep`.

  Both splits share Java's two corner rules: a string WITHOUT a match comes back as its own
  single piece (so `"".split(..)` is `[""]`), and otherwise trailing empty pieces are removed
  while a leading empty piece is kept.

  The lemmas are the ones that let a reader be matched against a writer: a token run separated
  by blanks splits back into its tokens (`splitWs_line`), a field in which no separator starts
  is peeled off whole (`fieldsOn_append_sep`), searching skips any stretch that lacks the
  pattern's first character (`indexOf_skip`), and a first hit stays the first whatever is
  written behind it (`indexOf_replace`).
-/
import Mathlib.Data.List.Basic
import Mathlib.Data.List.DropRight
import Mathlib.Tactic.Common

namespace SearchEngine.Text

/-- A Java string: the list of its characters. -/
abbrev Str := List Char

/-! ## Substring search -/

/-- `s.indexOf(pat)`: the least index at which `pat` starts in `s`. -/
def indexOf (pat : Str) : Str → Option Nat
  | [] => if pat.isEmpty then some 0 else none
  | c :: cs => if pat.isPrefixOf (c :: cs) then some 0 else (indexOf pat cs).map (· + 1)

/-- A hit at the front is found at once. -/
theorem indexOf_front {pat s : Str} (h : pat <+: s) : indexOf pat s = some 0 := by
  cases s with
  | nil =>
    have hpat : pat = [] := List.prefix_nil.mp h
    subst hpat
    rfl
  | cons c cs => rw [indexOf, if_pos (List.isPrefixOf_iff_prefix.mpr h)]

/-- Nothing is found in the empty string. -/
theorem indexOf_nil {pat : Str} (h : pat ≠ []) : indexOf pat [] = none := by
  cases pat with
  | nil => exact absurd rfl h
  | cons p ps => rfl

/-- A character that cannot open the pattern is skipped. -/
theorem indexOf_cons_ne {p c : Char} (ps cs : Str) (h : c ≠ p) :
    indexOf (p :: ps) (c :: cs) = (indexOf (p :: ps) cs).map (· + 1) := by
  have hno : ¬ (p :: ps).isPrefixOf (c :: cs) = true := by
    simp [List.isPrefixOf, Ne.symm h]
  rw [indexOf, if_neg hno]

/-- **Searching skips** a stretch `x` that lacks the pattern's first character. -/
theorem indexOf_skip {p : Char} (ps : Str) :
    ∀ (x y : Str), p ∉ x →
      indexOf (p :: ps) (x ++ y) = (indexOf (p :: ps) y).map (· + x.length)
  | [], y, _ => by simp
  | c :: x, y, h => by
    have hc : c ≠ p := fun hcp => h (hcp ▸ List.mem_cons_self)
    have hx : p ∉ x := fun hp => h (List.mem_cons_of_mem c hp)
    rw [List.cons_append, indexOf_cons_ne ps (x ++ y) hc, indexOf_skip ps x y hx,
      Option.map_map]
    rfl

/-- What is found stands there. -/
theorem indexOf_split {pat : Str} :
    ∀ {s : Str} {n : Nat}, indexOf pat s = some n →
      ∃ pre post, s = pre ++ (pat ++ post) ∧ pre.length = n
  | [], n, h => by
    rw [indexOf] at h
    split at h
    · rename_i hpat
      exact ⟨[], [], by simpa using hpat, by simpa using h⟩
    · cases h
  | c :: cs, n, h => by
    rw [indexOf] at h
    split at h
    · rename_i hpre
      obtain ⟨post, hpost⟩ := List.isPrefixOf_iff_prefix.mp hpre
      exact ⟨[], post, hpost.symm, Option.some.inj h⟩
    · obtain ⟨m, hm, rfl⟩ := Option.map_eq_some_iff.mp h
      obtain ⟨pre, post, rfl, rfl⟩ := indexOf_split hm
      exact ⟨c :: pre, post, rfl, rfl⟩

/-- Nothing is found just when the pattern is nowhere. -/
theorem indexOf_eq_none_iff {pat : Str} :
    ∀ {s : Str}, indexOf pat s = none ↔ ¬ pat <:+: s
  | [] => by
    rw [indexOf, List.infix_nil]
    cases pat <;> simp
  | c :: cs => by
    rw [indexOf, List.infix_cons_iff, not_or, ← List.isPrefixOf_iff_prefix,
      ← indexOf_eq_none_iff]
    split <;> simp_all

/-- A pattern that is in the text is found, and the text can be cut there. -/
theorem indexOf_of_infix {pat s : Str} (h : pat <:+: s) :
    ∃ a z, s = a ++ (pat ++ z) ∧ indexOf pat (a ++ (pat ++ z)) = some a.length := by
  obtain ⟨n, hn⟩ := Option.ne_none_iff_exists'.mp (fun h0 => indexOf_eq_none_iff.mp h0 h)
  obtain ⟨a, z, rfl, rfl⟩ := indexOf_split hn
  exact ⟨a, z, rfl, hn⟩

/-- A first hit stays the first when the text behind it is replaced. -/
theorem indexOf_replace {pat post : Str} (post' : Str) :
    ∀ {pre : Str}, indexOf pat (pre ++ (pat ++ post)) = some pre.length →
      indexOf pat (pre ++ (pat ++ post')) = some pre.length
  | [], _ => indexOf_front (List.prefix_append pat post')
  | c :: pre, h => by
    rw [List.cons_append, indexOf] at h
    split at h
    · exact absurd (Option.some.inj h) (by simp)
    · rename_i hno
      obtain ⟨m, hm, hlen⟩ := Option.map_eq_some_iff.mp h
      obtain rfl : m = pre.length := by simpa using hlen
      have hno' : ¬ pat.isPrefixOf (c :: (pre ++ (pat ++ post'))) = true := by
        intro hp
        refine hno (List.isPrefixOf_iff_prefix.mpr ?_)
        -- the hit lies within the part that stays
        have hkeep : c :: (pre ++ pat) <+: c :: (pre ++ (pat ++ post')) := ⟨post', by simp⟩
        have hin : pat <+: c :: (pre ++ pat) :=
          List.prefix_of_prefix_length_le (List.isPrefixOf_iff_prefix.mp hp) hkeep (by simp; omega)
        exact hin.trans ⟨post, by simp⟩
      rw [List.cons_append, indexOf, if_neg hno', indexOf_replace post' hm]
      rfl

/-- `s.contains(pat)`. -/
def contains (s pat : Str) : Bool := (indexOf pat s).isSome

/-- What a text contains, it contains character by character. -/
theorem mem_of_contains {pat s : Str} (h : contains s pat = true) : ∀ c ∈ pat, c ∈ s := by
  intro c hc
  obtain ⟨n, hn⟩ := Option.isSome_iff_exists.mp h
  obtain ⟨pre, post, rfl, -⟩ := indexOf_split hn
  simp [hc]

/-- `s.replaceFirst(pat, rep)` for a pattern and a replacement without special characters. -/
def replaceFirst (pat rep s : Str) : Str :=
  match indexOf pat s with
  | some n => s.take n ++ (rep ++ s.drop (n + pat.length))
  | none => s

/-- The first occurrence is behind a stretch that lacks the character. -/
theorem replaceFirst_char {p : Char} (rep : Str) {pre post : Str} (h : p ∉ pre) :
    replaceFirst [p] rep (pre ++ p :: post) = pre ++ (rep ++ post) := by
  have hfront : indexOf [p] (p :: post) = some 0 := indexOf_front ⟨post, rfl⟩
  rw [replaceFirst, indexOf_skip [] pre (p :: post) h, hfront]
  simp

/-! ## Splitting at white space -/

/-- The class `\s` of a Java regular expression. -/
def isSpace (c : Char) : Bool :=
  c == ' ' || c == '\t' || c == '\n' || c == '\x0b' || c == '\x0c' || c == '\r'

/-- Does the text open with white space? -/
def startsWs : Str → Bool
  | [] => false
  | c :: _ => isSpace c

/-- The pieces between maximal runs of white space, empty ones included. -/
def fieldsWs : Str → List Str
  | [] => [[]]
  | c :: cs =>
    if isSpace c then
      -- inside a run only its last character ends the piece
      if startsWs cs then fieldsWs cs else [] :: fieldsWs cs
    else (fieldsWs cs).modifyHead (c :: ·)

/-- Java's rule on the pieces of a split: one piece means "no match" and is kept as it is;
    otherwise trailing empty pieces go. -/
def trimPieces (fs : List Str) : List Str :=
  match fs with
  | [f] => [f]
  | fs => fs.rdropWhile List.isEmpty

/-- `s.split("\\s+")`. -/
def splitWs (s : Str) : List Str := trimPieces (fieldsWs s)

example : splitWs "  a b ".toList = [[], ['a'], ['b']] := by decide
example : splitWs [] = [[]] := by decide
example : splitWs "  ".toList = [] := by decide

theorem fieldsWs_ne_nil : ∀ s : Str, fieldsWs s ≠ []
  | [] => by simp [fieldsWs]
  | c :: cs => by
    have ih := fieldsWs_ne_nil cs
    unfold fieldsWs
    split
    · split
      · exact ih
      · simp
    · cases h : fieldsWs cs with
      | nil => exact absurd h ih
      | cons f fs => simp

/-- A token without white space goes in front of the first piece. -/
theorem fieldsWs_append : ∀ (tok s : Str), (∀ c ∈ tok, isSpace c = false) →
    fieldsWs (tok ++ s) = (fieldsWs s).modifyHead (tok ++ ·)
  | [], s, _ => by
    cases h : fieldsWs s with
    | nil => exact absurd h (fieldsWs_ne_nil s)
    | cons f fs => simp [h]
  | c :: tok, s, hw => by
    have hc : isSpace c = false := hw c List.mem_cons_self
    have ih := fieldsWs_append tok s (fun x hx => hw x (List.mem_cons_of_mem c hx))
    rw [List.cons_append, fieldsWs, if_neg (by simp [hc]), ih]
    cases h : fieldsWs s with
    | nil => exact absurd h (fieldsWs_ne_nil s)
    | cons f fs => simp

/-- A run of blanks ends the piece before it, once. -/
theorem fieldsWs_blanks (s : Str) (hs : startsWs s = false) :
    ∀ k : Nat, fieldsWs (List.replicate (k + 1) ' ' ++ s) = [] :: fieldsWs s
  | 0 => by
    show fieldsWs (' ' :: s) = _
    rw [fieldsWs, if_pos (by decide), hs]
    simp
  | k + 1 => by
    rw [List.replicate_succ, List.cons_append, fieldsWs, if_pos (by decide),
      if_pos (by rw [List.replicate_succ]; rfl)]
    exact fieldsWs_blanks s hs k

/-- A token and the blanks behind it: one entry of a line of tokens. -/
structure Entry where
  /-- the token -/
  tok : Str
  /-- how many blanks follow it -/
  pad : Nat

/-- The text of an entry. -/
def Entry.text (e : Entry) : Str := e.tok ++ List.replicate e.pad ' '

/-- The text of a line of tokens. -/
def lineText (es : List Entry) : Str := es.flatMap Entry.text

/-- A token proper: not empty, no white space inside. -/
def IsToken (t : Str) : Prop := t ≠ [] ∧ ∀ c ∈ t, isSpace c = false

/-- A line whose entries are tokens, every entry but the last followed by a blank. -/
def GoodLine : List Entry → Prop
  | [] => True
  | [e] => IsToken e.tok
  | e :: f :: es => IsToken e.tok ∧ 1 ≤ e.pad ∧ GoodLine (f :: es)

/-- A good line opens with a token, not with white space. -/
theorem startsWs_lineText {e : Entry} {es : List Entry} (h : GoodLine (e :: es)) :
    startsWs (lineText (e :: es)) = false := by
  have ht : IsToken e.tok := by
    cases es with
    | nil => exact h
    | cons f fs => exact h.1
  obtain ⟨hne, hws⟩ := ht
  cases htok : e.tok with
  | nil => exact absurd htok hne
  | cons c t =>
    have hc : isSpace c = false := hws c (by rw [htok]; exact List.mem_cons_self)
    simpa [lineText, Entry.text, htok, startsWs] using hc

/-- The pieces of a good line: its tokens, then an empty piece when blanks end the line. -/
theorem fieldsWs_line : ∀ (es : List Entry), es ≠ [] → GoodLine es →
    fieldsWs (lineText es) = es.map Entry.tok ∨ fieldsWs (lineText es) = es.map Entry.tok ++ [[]]
  | [], hne, _ => absurd rfl hne
  | [e], _, hg => by
    have hws : ∀ c ∈ e.tok, isSpace c = false := hg.2
    have htext : lineText [e] = e.tok ++ (List.replicate e.pad ' ' ++ []) := by
      simp [lineText, Entry.text]
    rw [htext, fieldsWs_append _ _ hws]
    cases hpad : e.pad with
    | zero => exact Or.inl (by simp [fieldsWs])
    | succ k =>
      rw [fieldsWs_blanks [] rfl k]
      exact Or.inr (by simp [fieldsWs])
  | e :: f :: es, _, hg => by
    obtain ⟨htok, hpad, hrest⟩ := hg
    have htext : lineText (e :: f :: es)
        = e.tok ++ (List.replicate e.pad ' ' ++ lineText (f :: es)) := by
      simp [lineText, Entry.text]
    obtain ⟨k, hk⟩ : ∃ k, e.pad = k + 1 := ⟨e.pad - 1, by omega⟩
    rw [htext, fieldsWs_append _ _ htok.2, hk, fieldsWs_blanks _ (startsWs_lineText hrest) k]
    rcases fieldsWs_line (f :: es) (by simp) hrest with h | h
    · exact Or.inl (by rw [h]; simp)
    · exact Or.inr (by rw [h]; simp)

/-- Trailing empty pieces go, and a list that ends in a non-empty piece stays. -/
theorem rdropWhile_isEmpty_concat {fs : List Str} {f : Str} (hf : f ≠ []) :
    (fs ++ [f]).rdropWhile List.isEmpty = fs ++ [f] :=
  List.rdropWhile_concat_neg _ _ _ (by simpa using hf)

theorem rdropWhile_isEmpty_of_filled {fs : List Str} (h : ∀ f ∈ fs, f ≠ []) :
    fs.rdropWhile List.isEmpty = fs := by
  rcases List.eq_nil_or_concat fs with rfl | ⟨gs, g, rfl⟩
  · rfl
  · rw [List.concat_eq_append] at h ⊢
    exact rdropWhile_isEmpty_concat (h g (by simp))

/-- From two pieces on there was a match, and the rule applies. -/
theorem trimPieces_of_two_le {fs : List Str} (h : 2 ≤ fs.length) :
    trimPieces fs = fs.rdropWhile List.isEmpty := by
  unfold trimPieces
  split
  · exact absurd h (by simp)
  · rfl

/-- Pieces that are not empty all stay. -/
theorem trimPieces_of_filled {fs : List Str} (h : ∀ f ∈ fs, f ≠ []) : trimPieces fs = fs := by
  unfold trimPieces
  split
  · rfl
  · exact rdropWhile_isEmpty_of_filled h

/-- Every token of a good line is one. -/
theorem isToken_of_mem : ∀ {es : List Entry}, GoodLine es → ∀ e ∈ es, IsToken e.tok
  | [], _, e, he => absurd he (by simp)
  | [e'], hg, e, he => by
    obtain rfl : e = e' := by simpa using he
    exact hg
  | e' :: f :: es, hg, e, he => by
    rcases List.mem_cons.mp he with rfl | he
    · exact hg.1
    · exact isToken_of_mem hg.2.2 e he

/-- **A good line splits back into its tokens**, however many blanks separate them. -/
theorem splitWs_line {es : List Entry} (hne : es ≠ []) (hg : GoodLine es) :
    splitWs (lineText es) = es.map Entry.tok := by
  have hfilled : ∀ f ∈ es.map Entry.tok, f ≠ [] := by
    intro f hf
    obtain ⟨e, he, rfl⟩ := List.mem_map.mp hf
    exact (isToken_of_mem hg e he).1
  rcases fieldsWs_line es hne hg with h | h
  · rw [splitWs, h]
    exact trimPieces_of_filled hfilled
  · -- blanks behind the line leave one empty piece, which is trimmed
    have hlen : 2 ≤ (es.map Entry.tok ++ [[]]).length := by
      have hpos : 0 < es.length := List.length_pos_iff.mpr hne
      rw [List.length_append, List.length_map, List.length_singleton]
      omega
    rw [splitWs, h, trimPieces_of_two_le hlen, List.rdropWhile_concat_pos _ _ _ (by rfl)]
    exact rdropWhile_isEmpty_of_filled hfilled

/-- The pieces of any text: an empty one in front when white space opens it, pieces that are not
    empty, and an empty one at the end or none. -/
theorem fieldsWs_shape : ∀ s : Str, ∃ fs e : List Str,
    fieldsWs s = (if startsWs s then [[]] else []) ++ (fs ++ e) ∧ (∀ f ∈ fs, f ≠ []) ∧
      (e = [] ∨ e = [[]]) ∧ fs ++ e ≠ [] ∧ (fs = [] ↔ ∀ c ∈ s, isSpace c = true)
  | [] => ⟨[], [[]], rfl, by simp, Or.inr rfl, by simp, by simp⟩
  | c :: cs => by
    obtain ⟨fs, e, heq, hfs, he, hne, hall⟩ := fieldsWs_shape cs
    cases hc : isSpace c with
    | true =>
      have hstarts : startsWs (c :: cs) = true := hc
      have hcons : (∀ x ∈ c :: cs, isSpace x = true) ↔ ∀ x ∈ cs, isSpace x = true := by
        simp [hc]
      refine ⟨fs, e, ?_, hfs, he, hne, hall.trans hcons.symm⟩
      rw [fieldsWs, if_pos hc, hstarts, if_pos rfl]
      cases hcs : startsWs cs with
      | true => simpa [hcs] using heq
      | false => simpa [hcs] using heq
    | false =>
      have hstarts : startsWs (c :: cs) = false := hc
      rw [fieldsWs, if_neg (by simp [hc]), hstarts, heq]
      cases hcs : startsWs cs with
      | true =>
        refine ⟨[c] :: fs, e, by simp, ?_, he, by simp, by simp [hc]⟩
        intro f hf
        rcases List.mem_cons.mp hf with rfl | hf
        · simp
        · exact hfs f hf
      | false =>
        cases fs with
        | nil =>
          obtain rfl : e = [[]] := he.resolve_left (by simpa using hne)
          exact ⟨[[c]], [], by simp, by simp, Or.inl rfl, by simp, by simp [hc]⟩
        | cons g gs =>
          refine ⟨(c :: g) :: gs, e, by simp, ?_, he, by simp, by simp [hc]⟩
          intro f hf
          rcases List.mem_cons.mp hf with rfl | hf
          · simp
          · exact hfs f (List.mem_cons_of_mem g hf)

/-- The rule on trailing pieces, at the last piece that is not empty. -/
theorem trimPieces_last {fs e : List Str} {f : Str} (hf : f ≠ []) (he : e = [] ∨ e = [[]]) :
    trimPieces (fs ++ [f] ++ e) = fs ++ [f] := by
  rcases he with rfl | rfl
  · rw [List.append_nil]
    cases fs with
    | nil => rfl
    | cons g gs =>
      rw [trimPieces_of_two_le (by simp), rdropWhile_isEmpty_concat hf]
  · rw [trimPieces_of_two_le (by simp), List.rdropWhile_concat_pos _ _ _ rfl,
      rdropWhile_isEmpty_concat hf]

/-- **When a split has an empty piece**: the text is empty, or white space stands before a word. -/
theorem nil_mem_splitWs_iff (s : Str) :
    [] ∈ splitWs s ↔ s = [] ∨ (startsWs s = true ∧ ∃ c ∈ s, isSpace c = false) := by
  obtain ⟨fs, e, heq, hfs, he, hne, hall⟩ := fieldsWs_shape s
  rw [splitWs, heq]
  rcases List.eq_nil_or_concat fs with rfl | ⟨gs, f, hconcat⟩
  · -- white space only: two empty pieces, and both go
    obtain rfl : e = [[]] := he.resolve_left hne
    have hspace : ∀ c ∈ s, isSpace c = true := hall.mp rfl
    cases s with
    | nil => simp [startsWs, trimPieces]
    | cons c cs =>
      have hc : startsWs (c :: cs) = true := hspace c List.mem_cons_self
      rw [hc, if_pos rfl]
      simpa [trimPieces, List.rdropWhile] using hspace
  · -- some piece is not empty, so only the one in front can be
    rw [List.concat_eq_append] at hconcat
    have hf : f ≠ [] := hfs f (by rw [hconcat]; simp)
    have hfree : [] ∉ fs := fun hmem => hfs [] hmem rfl
    have hsome : ∃ c ∈ s, isSpace c = false := by
      have hnot : ¬ ∀ c ∈ s, isSpace c = true := fun hcon => by
        rw [hall.mpr hcon] at hconcat
        simp at hconcat
      simpa using hnot
    have hs : s ≠ [] := by
      rintro rfl
      simp at hsome
    rw [hconcat, ← List.append_assoc, ← List.append_assoc, trimPieces_last hf he,
      List.append_assoc, ← hconcat]
    cases hstarts : startsWs s with
    | true => simpa [hs] using hsome
    | false => simpa [hs] using hfree

/-! ## Splitting at a literal separator -/

/-- The pieces between the leftmost non-overlapping occurrences of `sep`, empty ones included.
    The counter says how many characters of an occurrence are still to be consumed. -/
def fieldsOn (sep : Str) : Nat → Str → List Str
  | _, [] => [[]]
  | k + 1, _ :: cs => fieldsOn sep k cs
  | 0, c :: cs =>
    if sep.isPrefixOf (c :: cs) then [] :: fieldsOn sep (sep.length - 1) cs
    else (fieldsOn sep 0 cs).modifyHead (c :: ·)

/-- `s.split(sep)` for a separator that is not empty and has no regex operators. -/
def splitOn (sep s : Str) : List Str := trimPieces (fieldsOn sep 0 s)

example : splitOn ";;".toList " 2;;3;;".toList = [[' ', '2'], ['3']] := by decide

theorem fieldsOn_ne_nil (sep : Str) : ∀ (s : Str) (k : Nat), fieldsOn sep k s ≠ []
  | [], k => by cases k <;> simp [fieldsOn]
  | c :: cs, k + 1 => by rw [fieldsOn]; exact fieldsOn_ne_nil sep cs k
  | c :: cs, 0 => by
    rw [fieldsOn]
    split
    · simp
    · cases h : fieldsOn sep 0 cs with
      | nil => exact absurd h (fieldsOn_ne_nil sep cs 0)
      | cons f fs => simp

/-- The rest of an occurrence is consumed. -/
theorem fieldsOn_skip (sep : Str) : ∀ (x s : Str), fieldsOn sep x.length (x ++ s) = fieldsOn sep 0 s
  | [], _ => rfl
  | _ :: x, s => fieldsOn_skip sep x s

/-- A separator ends the piece before it. -/
theorem fieldsOn_sep {sep : Str} (hsep : sep ≠ []) (s : Str) :
    fieldsOn sep 0 (sep ++ s) = [] :: fieldsOn sep 0 s := by
  cases hs : sep with
  | nil => exact absurd hs hsep
  | cons c t =>
    rw [List.cons_append, fieldsOn,
      if_pos (List.isPrefixOf_iff_prefix.mpr ⟨s, by rw [List.cons_append]⟩)]
    congr 1
    exact fieldsOn_skip (c :: t) t s

/-- No occurrence of `sep` starts inside `x` when `s` follows it. -/
def Clear (sep x s : Str) : Prop := ∀ u v, x = u ++ v → v ≠ [] → ¬ sep <+: v ++ s

theorem Clear.tail {sep x s : Str} {c : Char} (h : Clear sep (c :: x) s) : Clear sep x s :=
  fun u v hx hv => h (c :: u) v (by rw [hx, List.cons_append]) hv

/-- A stretch where no separator starts goes in front of the first piece. -/
theorem fieldsOn_append {sep : Str} : ∀ (x s : Str), Clear sep x s →
    fieldsOn sep 0 (x ++ s) = (fieldsOn sep 0 s).modifyHead (x ++ ·)
  | [], s, _ => by
    cases h : fieldsOn sep 0 s with
    | nil => exact absurd h (fieldsOn_ne_nil sep s 0)
    | cons f fs => simp [h]
  | c :: x, s, hclear => by
    have hno : ¬ sep.isPrefixOf (c :: (x ++ s)) = true := fun hp =>
      hclear [] (c :: x) rfl (by simp) (List.isPrefixOf_iff_prefix.mp hp)
    rw [List.cons_append, fieldsOn, if_neg hno, fieldsOn_append x s hclear.tail]
    cases h : fieldsOn sep 0 s with
    | nil => exact absurd h (fieldsOn_ne_nil sep s 0)
    | cons f fs => simp

/-- **A clear field is peeled off whole.** -/
theorem fieldsOn_append_sep {sep x s : Str} (hsep : sep ≠ []) (h : Clear sep x (sep ++ s)) :
    fieldsOn sep 0 (x ++ (sep ++ s)) = x :: fieldsOn sep 0 s := by
  rw [fieldsOn_append x (sep ++ s) h, fieldsOn_sep hsep]
  simp

/-- A text that lacks the separator's first character is clear of it. -/
theorem clear_of_not_mem {c : Char} {t x s : Str} (h : c ∉ x) : Clear (c :: t) x s := by
  intro u v hx hv hp
  cases v with
  | nil => exact hv rfl
  | cons d v =>
    obtain ⟨w, hw⟩ := hp
    rw [List.cons_append, List.cons_append] at hw
    have hcd : c = d := (List.cons.inj hw).1
    apply h
    rw [hx, hcd]
    simp

/-- `s.trim()`: drop every character up to and including the blank at both ends. -/
def trim (s : Str) : Str := (s.dropWhile (· ≤ ' ')).rdropWhile (· ≤ ' ')

end SearchEngine.Text

/-
  The text of a posting value, and the groups it spells.

  `decode` reads a value the way `CosSim.getPages` does: split on white space, every token
  `doc<ID>` opens a group, the tokens behind it are its positions.  `Spells v gs` says that `v`
  is a text of CHUNKS — a tag, positions each behind one blank, then some more blanks — whose
  groups are `gs`; a chunk carries its own well-formedness.

  On such a text the substring work of `InvertedIndexer.addEntry` does what the operations of
  `Lib.Postings` do to the groups:

  * `spells_indexOf`   — the search for `doc<p>` finds the first group whose ID EXTENDS `p`,
                         because a `d` stands at the head of a chunk only;
  * `spells_removeGroup` — the removal up to the next `d` drops that group;
  * `spells_addPosting`  — append or splice is `add`.

  `newValue_spells` puts them together: one turn of the loop, on texts, is `turn` on groups.
-/
import SearchEngine.CosSim
import SearchEngine.Lib.Postings
import Mathlib.Tactic.Common

namespace SearchEngine

open Text Numeral Postings InvertedIndexer

/-! ## Reading a value -/

/-- The groups of a token list: a page tag opens a group, what follows are its positions. -/
def decodeTokens : List Str → List (DocGroup Char)
  | [] => []
  | t :: ts =>
    if CosSim.isDocToken t then ⟨t.drop 3, ts.takeWhile (!CosSim.isDocToken ·)⟩ :: decodeTokens ts
    else decodeTokens ts

/-- The groups of a value. -/
def decode (v : Str) : List (DocGroup Char) := decodeTokens (splitWs v)

/-- The groups under a key; a missing value has none. -/
def groupsAt (db : RocksDB) (k : Str) : List (DocGroup Char) :=
  match db[k]? with
  | none => []
  | some v => decode v

/-- The groups of a word: those under its ID. -/
def postings (f : Field) (s : Stores) (w : Str) : List (DocGroup Char) :=
  match (s .word)[w]? with
  | none => []
  | some k => groupsAt (s f.db) k

/-! ## Chunks -/

/-- One group as it stands in a value, with the blanks behind it. -/
structure Chunk where
  group : DocGroup Char
  pad : Nat
  doc_digits : IsDigits group.doc
  poss_digits : ∀ q ∈ group.poss, IsDigits q
  poss_ne_nil : group.poss ≠ []

namespace Chunk

/-- What stands behind the `d`. -/
def body (c : Chunk) : Str :=
  "oc".toList ++ (c.group.doc ++ (c.group.poss.flatMap (' ' :: ·) ++ List.replicate c.pad ' '))

/-- The text of a chunk. -/
def text (c : Chunk) : Str := 'd' :: c.body

/-- The tokens of a chunk. -/
def tokens (c : Chunk) : List Str := docTag c.group.doc :: c.group.poss

end Chunk

/-- The text of a list of chunks. -/
def chunksText (chs : List Chunk) : Str := chs.flatMap Chunk.text

/-- Every chunk but the last ends in a blank. -/
def Separated : List Chunk → Prop
  | [] => True
  | [_] => True
  | c :: d :: chs => 1 ≤ c.pad ∧ Separated (d :: chs)

/-- The text `v` spells the groups `gs`. -/
def Spells (v : Str) (gs : List (DocGroup Char)) : Prop :=
  ∃ chs, Separated chs ∧ v = chunksText chs ∧ gs = chs.map Chunk.group

theorem chunksText_append (chs chs' : List Chunk) :
    chunksText (chs ++ chs') = chunksText chs ++ chunksText chs' :=
  List.flatMap_append

theorem chunksText_cons (c : Chunk) (chs : List Chunk) :
    chunksText (c :: chs) = c.text ++ chunksText chs :=
  List.flatMap_cons

theorem Separated.tail {c : Chunk} {chs : List Chunk} (h : Separated (c :: chs)) :
    Separated chs := by
  cases chs with
  | nil => trivial
  | cons d chs => exact h.2

/-- Two separated lists may be joined when the first one ends in a blank. -/
theorem separated_append {chs' : List Chunk} (h' : Separated chs') :
    ∀ {chs : List Chunk}, (∀ c ∈ chs, 1 ≤ c.pad) → Separated (chs ++ chs')
  | [], _ => h'
  | [c], h => by
    cases chs' with
    | nil => trivial
    | cons d chs' => exact ⟨h c (by simp), h'⟩
  | c :: d :: chs, h =>
    ⟨h c (by simp), separated_append h' (fun x hx => h x (List.mem_cons_of_mem c hx))⟩

/-- In front of a chunk every chunk ends in a blank. -/
theorem Separated.pad_pos {c : Chunk} {post : List Chunk} :
    ∀ {pre : List Chunk}, Separated (pre ++ c :: post) → ∀ x ∈ pre, 1 ≤ x.pad
  | [], _, x, hx => absurd hx (by simp)
  | [d], h, x, hx => by
    obtain rfl : x = d := by simpa using hx
    exact h.1
  | d :: e :: pre, h, x, hx => by
    rcases List.mem_cons.mp hx with rfl | hx
    · exact h.1
    · exact Separated.pad_pos h.2 x hx

theorem Separated.right {post : List Chunk} :
    ∀ {pre : List Chunk}, Separated (pre ++ post) → Separated post
  | [], h => h
  | _ :: _, h => Separated.right h.tail

/-! ## The tokens of a text -/

theorem isToken_docTag {d : Str} (h : IsDigits d) : IsToken (docTag d) := by
  have hdoc : "doc".toList.any isSpace = false := by decide
  refine ⟨by simp [docTag], fun c hc => ?_⟩
  rcases List.mem_append.mp hc with hc | hc
  · exact Bool.eq_false_iff.mpr (List.any_eq_false.mp hdoc c hc)
  · exact isSpace_of_isDigit (h.2 c hc)

/-- The positions of a chunk as entries of a line: a blank behind each, `pad` behind the last. -/
def possEntries (pad : Nat) : List Str → List Entry
  | [] => []
  | [q] => [⟨q, pad⟩]
  | q :: r :: qs => ⟨q, 1⟩ :: possEntries pad (r :: qs)

theorem lineText_possEntries (pad : Nat) :
    ∀ (q : Str) (qs : List Str),
      ' ' :: lineText (possEntries pad (q :: qs))
        = (q :: qs).flatMap (' ' :: ·) ++ List.replicate pad ' '
  | q, [] => by simp [possEntries, lineText, Entry.text]
  | q, r :: qs => by
    have ih := lineText_possEntries pad r qs
    have htext : lineText (possEntries pad (q :: r :: qs))
        = q ++ ' ' :: lineText (possEntries pad (r :: qs)) := by
      simp [possEntries, lineText, Entry.text]
    rw [htext, ih]
    simp

theorem possEntries_tok (pad : Nat) :
    ∀ qs : List Str, (possEntries pad qs).map Entry.tok = qs
  | [] => rfl
  | [q] => rfl
  | q :: r :: qs => by
    show q :: (possEntries pad (r :: qs)).map Entry.tok = _
    rw [possEntries_tok pad (r :: qs)]

namespace Chunk

/-- A chunk as a line of tokens. -/
def entries (c : Chunk) : List Entry := ⟨docTag c.group.doc, 1⟩ :: possEntries c.pad c.group.poss

theorem lineText_entries (c : Chunk) : lineText c.entries = c.text := by
  cases hposs : c.group.poss with
  | nil => exact absurd hposs c.poss_ne_nil
  | cons q qs =>
    have hline : lineText c.entries
        = docTag c.group.doc ++ ' ' :: lineText (possEntries c.pad (q :: qs)) := by
      simp [entries, hposs, lineText, Entry.text]
    rw [hline, lineText_possEntries]
    simp [text, body, hposs, docTag]

theorem entries_tok (c : Chunk) : c.entries.map Entry.tok = c.tokens := by
  show docTag c.group.doc :: (possEntries c.pad c.group.poss).map Entry.tok = _
  rw [possEntries_tok]
  rfl

/-- A chunk's positions followed by a good line make a good line, given a blank in between. -/
theorem goodLine_poss {pad : Nat} {es : List Entry} (hes : GoodLine es)
    (hpad : es ≠ [] → 1 ≤ pad) :
    ∀ (qs : List Str), (∀ q ∈ qs, IsDigits q) → GoodLine (possEntries pad qs ++ es)
  | [], _ => hes
  | [q], hq => by
    have htok : IsToken q := isToken_of_isDigits (hq q (by simp))
    cases es with
    | nil => exact htok
    | cons e es => exact ⟨htok, hpad (by simp), hes⟩
  | q :: r :: qs, hq => by
    have htok : IsToken q := isToken_of_isDigits (hq q (by simp))
    have hrest := goodLine_poss hes hpad (r :: qs) (fun x hx => hq x (List.mem_cons_of_mem q hx))
    cases hne : possEntries pad (r :: qs) ++ es with
    | nil => cases qs <;> simp [possEntries] at hne
    | cons e es' =>
      show GoodLine (⟨q, 1⟩ :: (possEntries pad (r :: qs) ++ es))
      rw [hne] at hrest ⊢
      exact ⟨htok, Nat.le_refl 1, hrest⟩

end Chunk

theorem goodLine_chunks : ∀ chs : List Chunk, Separated chs → GoodLine (chs.flatMap Chunk.entries)
  | [], _ => trivial
  | c :: chs, h => by
    have hrest := goodLine_chunks chs h.tail
    have hpad : chs.flatMap Chunk.entries ≠ [] → 1 ≤ c.pad := by
      intro hne
      cases chs with
      | nil => exact absurd rfl hne
      | cons d chs => exact h.1
    have hposs := Chunk.goodLine_poss hrest hpad c.group.poss c.poss_digits
    have htag : IsToken (docTag c.group.doc) := isToken_docTag c.doc_digits
    rw [List.flatMap_cons]
    show GoodLine (⟨docTag c.group.doc, 1⟩ ::
      (possEntries c.pad c.group.poss ++ chs.flatMap Chunk.entries))
    cases hline : possEntries c.pad c.group.poss ++ chs.flatMap Chunk.entries with
    | nil => exact htag
    | cons e es =>
      rw [hline] at hposs
      exact ⟨htag, Nat.le_refl 1, hposs⟩

/-- **A text splits into the tokens of its chunks.** -/
theorem splitWs_chunksText {chs : List Chunk} (hne : chs ≠ []) (h : Separated chs) :
    splitWs (chunksText chs) = chs.flatMap Chunk.tokens := by
  have htext : chunksText chs = lineText (chs.flatMap Chunk.entries) := by
    rw [lineText, List.flatMap_assoc]
    exact List.flatMap_congr (fun c _ => (Chunk.lineText_entries c).symm)
  have htoks : (chs.flatMap Chunk.entries).map Entry.tok = chs.flatMap Chunk.tokens := by
    rw [List.map_flatMap]
    exact List.flatMap_congr (fun c _ => Chunk.entries_tok c)
  have hne' : chs.flatMap Chunk.entries ≠ [] := by
    cases chs with
    | nil => exact absurd rfl hne
    | cons c chs => simp [Chunk.entries]
  rw [htext, splitWs_line hne' (goodLine_chunks chs h), htoks]

theorem isDocToken_docTag {d : Str} (h : d ≠ []) : CosSim.isDocToken (docTag d) = true := by
  cases d with
  | nil => exact absurd rfl h
  | cons c d => simp [CosSim.isDocToken, docTag]

theorem isDocToken_of_isDigits {q : Str} (h : IsDigits q) : CosSim.isDocToken q = false := by
  cases q with
  | nil => exact absurd rfl h.1
  | cons c q =>
    have hc : c ≠ 'd' := fun he => absurd (h.2 c (by simp)) (by rw [he]; decide)
    simp [CosSim.isDocToken, List.take, hc]

/-- The positions of a chunk end where the next tag stands. -/
theorem takeWhile_poss {rest : List Str}
    (hrest : ∀ t ∈ rest.head?, CosSim.isDocToken t = true) :
    ∀ qs : List Str, (∀ q ∈ qs, IsDigits q) →
      (qs ++ rest).takeWhile (!CosSim.isDocToken ·) = qs
  | [], _ => by
    cases rest with
    | nil => rfl
    | cons t ts => simp [hrest t (by simp)]
  | q :: qs, h => by
    have hq := isDocToken_of_isDigits (h q (by simp))
    have ih := takeWhile_poss hrest qs (fun x hx => h x (List.mem_cons_of_mem q hx))
    rw [List.cons_append, List.takeWhile_cons_of_pos (by simp [hq]), ih]

theorem decodeTokens_digits (ts : List Str) :
    ∀ qs : List Str, (∀ q ∈ qs, IsDigits q) → decodeTokens (qs ++ ts) = decodeTokens ts
  | [], _ => rfl
  | q :: qs, h => by
    have hq := isDocToken_of_isDigits (h q (by simp))
    rw [List.cons_append, decodeTokens, if_neg (by simp [hq])]
    exact decodeTokens_digits ts qs (fun x hx => h x (List.mem_cons_of_mem q hx))

theorem decodeTokens_chunks :
    ∀ chs : List Chunk, decodeTokens (chs.flatMap Chunk.tokens) = chs.map Chunk.group
  | [] => rfl
  | c :: chs => by
    have hnext : ∀ t ∈ (chs.flatMap Chunk.tokens).head?, CosSim.isDocToken t = true := by
      intro t ht
      cases chs with
      | nil => simp at ht
      | cons d chs =>
        obtain rfl : docTag d.group.doc = t := by simpa [Chunk.tokens] using ht
        exact isDocToken_docTag d.doc_digits.1
    rw [List.flatMap_cons]
    show decodeTokens (docTag c.group.doc :: (c.group.poss ++ chs.flatMap Chunk.tokens)) = _
    rw [decodeTokens, if_pos (isDocToken_docTag c.doc_digits.1),
      takeWhile_poss hnext _ c.poss_digits, decodeTokens_digits _ _ c.poss_digits,
      decodeTokens_chunks chs]
    rfl

/-- **Reading back**: a text decodes to the groups it spells. -/
theorem Spells.decode {v : Str} {gs : List (DocGroup Char)} (h : Spells v gs) : decode v = gs := by
  obtain ⟨chs, hsep, rfl, rfl⟩ := h
  cases chs with
  | nil => decide
  | cons c chs =>
    rw [SearchEngine.decode, splitWs_chunksText (by simp) hsep]
    exact decodeTokens_chunks (c :: chs)

/-! ## Search, removal and splice -/

/-- A `d` stands at the head of a chunk only. -/
theorem Chunk.not_mem_body (c : Chunk) : 'd' ∉ c.body := by
  intro h
  have hdigit : ∀ s : Str, IsDigits s → 'd' ∉ s := fun s hs hd => absurd (hs.2 _ hd) (by decide)
  rcases List.mem_append.mp h with h | h
  · exact absurd h (by decide)
  · rcases List.mem_append.mp h with h | h
    · exact hdigit _ c.doc_digits h
    · rcases List.mem_append.mp h with h | h
      · obtain ⟨q, hq, hd⟩ := List.mem_flatMap.mp h
        rcases List.mem_cons.mp hd with hd | hd
        · exact absurd hd (by decide)
        · exact hdigit q (c.poss_digits q hq) hd
      · exact absurd (List.eq_of_mem_replicate h) (by decide)

/-- Digits cannot run past a blank. -/
theorem prefix_of_prefix_blank {p d rest : Str} (hp : ∀ c ∈ p, c.isDigit = true)
    (h : p <+: d ++ ' ' :: rest) : p <+: d := by
  have hblank : ' ' ∉ p := fun hb => absurd (hp _ hb) (by decide)
  have hd : d ++ [' '] <+: d ++ ' ' :: rest := ⟨rest, by simp⟩
  rcases List.prefix_or_prefix_of_prefix h hd with h | h
  · rcases List.prefix_concat_iff.mp h with rfl | h
    · exact absurd (by simp) hblank
    · exact h
  · exact absurd (h.subset (by simp)) hblank

theorem Chunk.text_eq (c : Chunk) : ∃ rest, c.text = docTag c.group.doc ++ ' ' :: rest := by
  cases hposs : c.group.poss with
  | nil => exact absurd hposs c.poss_ne_nil
  | cons q qs =>
    exact ⟨q ++ (qs.flatMap (' ' :: ·) ++ List.replicate c.pad ' '),
      by simp [text, body, docTag, hposs]⟩

/-- The tag of `p` opens a chunk just when the chunk's ID extends `p`. -/
theorem docTag_prefix_iff {p : Str} (hp : IsDigits p) (c : Chunk) (rest : Str) :
    docTag p <+: c.text ++ rest ↔ hit p c.group = true := by
  obtain ⟨tl, htl⟩ := c.text_eq
  rw [htl, hit_iff, docTag, docTag, List.append_assoc, List.append_assoc, List.cons_append,
    List.prefix_append_right_inj]
  constructor
  · exact prefix_of_prefix_blank hp.2
  · exact fun h => h.trans (List.prefix_append _ _)

/-- The search runs over a chunk that is no hit. -/
theorem indexOf_chunk_skip {p : Str} (hp : IsDigits p) {c : Chunk} (hc : hit p c.group = false)
    (rest : Str) :
    indexOf (docTag p) (c.text ++ rest)
      = (indexOf (docTag p) rest).map (· + c.text.length) := by
  have hno : ¬ (docTag p).isPrefixOf (c.text ++ rest) = true := by
    rw [List.isPrefixOf_iff_prefix, docTag_prefix_iff hp, hc]
    exact Bool.false_ne_true
  have hskip : indexOf (docTag p) (c.body ++ rest)
      = (indexOf (docTag p) rest).map (· + c.body.length) :=
    indexOf_skip ("oc".toList ++ p) c.body rest c.not_mem_body
  have hstep : indexOf (docTag p) ('d' :: (c.body ++ rest))
      = (indexOf (docTag p) (c.body ++ rest)).map (· + 1) := by
    rw [indexOf]
    exact if_neg hno
  show indexOf (docTag p) ('d' :: (c.body ++ rest)) = _
  rw [hstep, hskip, Option.map_map]
  rfl

theorem indexOf_chunks_skip {p : Str} (hp : IsDigits p) (rest : Str) :
    ∀ {chs : List Chunk}, (∀ c ∈ chs, hit p c.group = false) →
      indexOf (docTag p) (chunksText chs ++ rest)
        = (indexOf (docTag p) rest).map (· + (chunksText chs).length)
  | [], _ => by simp [chunksText]
  | c :: chs, h => by
    rw [chunksText_cons, List.append_assoc, indexOf_chunk_skip hp (h c (by simp)),
      indexOf_chunks_skip hp rest (fun x hx => h x (List.mem_cons_of_mem c hx)),
      Option.map_map, List.length_append]
    congr 1
    funext n
    show n + _ + _ = _
    omega

/-- **Where the search for `p` stops**: nowhere, or at the head of the first chunk whose ID
    extends `p`. -/
theorem spells_indexOf {v p : Str} {gs : List (DocGroup Char)} (h : Spells v gs) (hp : IsDigits p) :
    (indexOf (docTag p) v = none ∧ ∀ g ∈ gs, hit p g = false) ∨
    ∃ pre c post, Separated (pre ++ c :: post) ∧
      v = chunksText pre ++ (c.text ++ chunksText post) ∧
      gs = pre.map Chunk.group ++ c.group :: post.map Chunk.group ∧
      (∀ g ∈ pre.map Chunk.group, hit p g = false) ∧ hit p c.group = true ∧
      indexOf (docTag p) v = some (chunksText pre).length := by
  obtain ⟨chs, hsep, rfl, rfl⟩ := h
  rcases first_hit p (chs.map Chunk.group) with hno | ⟨pre, g, post, hsplit, hpre, hg⟩
  · refine Or.inl ⟨?_, hno⟩
    have hskip := indexOf_chunks_skip hp [] (fun c hc => hno c.group (List.mem_map_of_mem hc))
    rw [List.append_nil] at hskip
    rw [hskip, indexOf_nil (by simp [docTag])]
    rfl
  · obtain ⟨pre, rest, rfl, rfl, hrest⟩ := List.map_eq_append_iff.mp hsplit
    obtain ⟨c, post, rfl, rfl, rfl⟩ := List.map_eq_cons_iff.mp hrest
    have hhead : indexOf (docTag p) (c.text ++ chunksText post) = some 0 :=
      indexOf_front ((docTag_prefix_iff hp c _).mpr hg)
    have hskip := indexOf_chunks_skip hp (c.text ++ chunksText post)
      (fun c hc => hpre c.group (List.mem_map_of_mem hc))
    refine Or.inr ⟨pre, c, post, hsep, ?_, ?_, hpre, hg, ?_⟩
    · rw [chunksText_append, chunksText_cons]
    · rw [List.map_append, List.map_cons]
    · rw [chunksText_append, chunksText_cons, hskip, hhead]
      simp

/-- From the head of a chunk, the next `d` opens the next chunk. -/
theorem findIdx_body (c : Chunk) (post : List Chunk) :
    (c.body ++ chunksText post).findIdx (· == 'd') = c.body.length := by
  have hbody : ∀ x ∈ c.body, ¬ (x == 'd') = true := by
    intro x hx he
    have hxd : x = 'd' := by simpa using he
    exact c.not_mem_body (hxd ▸ hx)
  have hlen : c.body.findIdx (· == 'd') = c.body.length :=
    List.findIdx_eq_length_of_false (fun x hx => by simpa using hbody x hx)
  rw [List.findIdx_append, hlen, if_neg (Nat.lt_irrefl _)]
  have hnext : (chunksText post).findIdx (· == 'd') = 0 := by
    cases post with
    | nil => rfl
    | cons d post => simp [chunksText, Chunk.text, List.findIdx_cons]
  rw [hnext, Nat.zero_add]

/-- **Removal** up to the next `d` drops the group found. -/
theorem spells_removeGroup {pre post : List Chunk} {c : Chunk}
    (hsep : Separated (pre ++ c :: post)) :
    removeGroup (chunksText pre ++ (c.text ++ chunksText post)) (chunksText pre).length
      = chunksText (pre ++ post) ∧ Separated (pre ++ post) := by
  constructor
  · have hdrop : (chunksText pre ++ (c.text ++ chunksText post)).drop ((chunksText pre).length + 1)
        = c.body ++ chunksText post := by
      rw [← List.drop_drop, List.drop_left]
      rfl
    have hend : (chunksText pre).length + 1 + c.body.length
        = (chunksText pre).length + c.text.length := by
      show _ = _ + (c.body.length + 1)
      omega
    rw [removeGroup, hdrop, findIdx_body, hend, List.take_left, ← List.drop_drop, List.drop_left,
      List.drop_left, chunksText_append]
  · exact separated_append hsep.right.tail hsep.pad_pos

/-- A chunk with one more position, taken over under the name `p`. -/
def Chunk.splice (c : Chunk) {p q : Str} (hp : IsDigits p) (hq : IsDigits q) : Chunk where
  group := ⟨p, (q ++ c.group.doc.drop p.length) :: c.group.poss⟩
  pad := c.pad
  doc_digits := hp
  poss_digits := by
    intro r hr
    rcases List.mem_cons.mp hr with rfl | hr
    · refine ⟨by simp [hq.1], fun x hx => ?_⟩
      rcases List.mem_append.mp hx with hx | hx
      · exact hq.2 x hx
      · exact c.doc_digits.2 x (List.mem_of_mem_drop hx)
    · exact c.poss_digits r hr
  poss_ne_nil := by simp

/-- A new chunk. -/
def Chunk.first {p q : Str} (hp : IsDigits p) (hq : IsDigits q) : Chunk where
  group := ⟨p, [q]⟩
  pad := 0
  doc_digits := hp
  poss_digits := by
    intro r hr
    rw [List.mem_singleton.mp hr]
    exact hq
  poss_ne_nil := by simp

/-- A chunk with one more blank behind it. -/
def Chunk.widen (c : Chunk) : Chunk := { c with pad := c.pad + 1 }

theorem Chunk.text_widen (c : Chunk) : c.widen.text = c.text ++ [' '] := by
  simp [text, body, widen, List.replicate_succ']

theorem Chunk.text_splice (c : Chunk) {p q : Str} (hp : IsDigits p) (hq : IsDigits q)
    (hit : p <+: c.group.doc) :
    (c.splice hp hq).text
      = c.text.take (docTag p).length ++ ' ' :: q ++ c.text.drop (docTag p).length := by
  obtain ⟨d, hd⟩ := hit
  have htext : c.text = docTag p
      ++ (d ++ (c.group.poss.flatMap (' ' :: ·) ++ List.replicate c.pad ' ')) := by
    simp [text, body, docTag, ← hd]
  rw [htext, List.take_left, List.drop_left]
  simp [text, body, docTag, splice, ← hd]

theorem Separated.replace {pre post : List Chunk} {c c' : Chunk} (hpad : c'.pad = c.pad)
    (h : Separated (pre ++ c :: post)) : Separated (pre ++ c' :: post) := by
  refine separated_append ?_ h.pad_pos
  have hright := h.right
  cases post with
  | nil => trivial
  | cons d post => exact ⟨hpad ▸ hright.1, hright.2⟩

/-- Behind a non-empty text, one blank and a new chunk. -/
theorem spells_append {v : Str} {gs : List (DocGroup Char)} (h : Spells v gs) (hv : v ≠ [])
    {p q : Str} (hp : IsDigits p) (hq : IsDigits q) :
    Spells (v ++ ' ' :: (docTag p ++ ' ' :: q)) (gs ++ [⟨p, [q]⟩]) := by
  obtain ⟨chs, hsep, rfl, rfl⟩ := h
  obtain ⟨chs, c, rfl⟩ : ∃ chs' c, chs = chs' ++ [c] := by
    have hne : chs ≠ [] := by
      rintro rfl
      exact hv rfl
    exact ⟨chs.dropLast, chs.getLast hne, (List.dropLast_append_getLast hne).symm⟩
  refine ⟨chs ++ [c.widen, Chunk.first hp hq], ?_, ?_, ?_⟩
  · have hlast : Separated [c.widen, Chunk.first hp hq] :=
      ⟨Nat.succ_le_succ (Nat.zero_le _), trivial⟩
    exact separated_append hlast hsep.pad_pos
  · have hfirst : (Chunk.first hp hq).text = docTag p ++ ' ' :: q := by
      simp [Chunk.text, Chunk.body, Chunk.first, docTag]
    rw [chunksText_append, chunksText_append, chunksText_cons, chunksText_cons, chunksText_cons,
      Chunk.text_widen, hfirst]
    simp [chunksText]
  · simp [Chunk.widen, Chunk.first]

theorem spells_first {p q : Str} (hp : IsDigits p) (hq : IsDigits q) :
    Spells (docTag p ++ ' ' :: q) [⟨p, [q]⟩] :=
  ⟨[Chunk.first hp hq], trivial, by simp [chunksText, Chunk.text, Chunk.body, Chunk.first, docTag],
    rfl⟩

/-- A text of chunks opens with a `d`, if at all. -/
theorem Spells.ne_blank {v : Str} {gs : List (DocGroup Char)} (h : Spells v gs) : v ≠ [' '] := by
  obtain ⟨chs, -, rfl, -⟩ := h
  cases chs with
  | nil => simp [chunksText]
  | cons c chs =>
    intro he
    have hd : 'd' = ' ' := (List.cons.inj he).1
    exact absurd hd (by decide)

theorem Spells.nil_iff {v : Str} {gs : List (DocGroup Char)} (h : Spells v gs) :
    v = [] ↔ gs = [] := by
  obtain ⟨chs, -, rfl, rfl⟩ := h
  cases chs with
  | nil => simp [chunksText]
  | cons c chs => simp [chunksText, Chunk.text]

/-- **Append or splice** is `add`. -/
theorem spells_addPosting {v p : Str} {gs : List (DocGroup Char)} (h : Spells v gs)
    (hp : IsDigits p) (i : Nat) :
    Spells (addPosting p i v (indexOf (docTag p) v)) (add p (decimal (i + 1)) gs) := by
  have hq : IsDigits (decimal (i + 1)) := isDigits_decimal _
  rcases spells_indexOf h hp with ⟨hnone, hno⟩ | ⟨pre, c, post, hsep, rfl, rfl, hpre, hc, hloc⟩
  · rw [hnone, add_of_none _ hno, addPosting]
    by_cases hv : v = []
    · have hgs : gs = [] := h.nil_iff.mp hv
      rw [if_pos (Or.inl hv), hgs]
      exact spells_first hp hq
    · rw [if_neg (by rintro (hv' | hv'); exacts [hv hv', h.ne_blank hv'])]
      exact spells_append h hv hp hq
  · rw [hloc, add_of_split _ hpre hc]
    refine ⟨pre ++ c.splice hp hq :: post, Separated.replace (c := c) rfl hsep, ?_, ?_⟩
    · have hlen : (docTag p).length ≤ c.text.length :=
        ((docTag_prefix_iff hp c []).mpr hc).length_le.trans (by simp)
      rw [chunksText_append, chunksText_cons, Chunk.text_splice c hp hq (hit_iff.mp hc), addPosting]
      simp only [List.take_length_add_append, List.drop_length_add_append,
        List.take_append_of_le_length hlen, List.drop_append_of_le_length hlen,
        List.append_assoc, List.cons_append]
    · rw [List.map_append, List.map_cons]
      rfl

/-! ## One turn of the loop -/

/-- A stored value spells the groups; no value, no groups. -/
def SpellsAt (value : Option Str) (gs : List (DocGroup Char)) : Prop :=
  match value with
  | none => gs = []
  | some v => Spells v gs

/-- Does this turn remove a group?  The flags allow it and the search finds one. -/
def cuts (p k : Str) (v : Loop) (gs : List (DocGroup Char)) : Bool :=
  (v.i == 0 || v.rewrite) && !v.refreshed.contains k && gs.any (hit p)

/-- The groups behind a turn. -/
def turnGroups (p k : Str) (v : Loop) (gs : List (DocGroup Char)) : List (DocGroup Char) :=
  add p (decimal (v.i + 1)) (if cuts p k v gs then remove p gs else gs)

/-- The loop variables behind a turn. -/
def turnLoop (p k : Str) (v : Loop) (gs : List (DocGroup Char)) : Loop :=
  if cuts p k v gs then ⟨v.i + 1, true, v.refreshed ++ [k]⟩
  else ⟨v.i + 1, v.rewrite, v.refreshed⟩

theorem cuts_iff {p k : Str} {v : Loop} {gs : List (DocGroup Char)} :
    cuts p k v gs = true ↔
      ((v.i = 0 ∨ v.rewrite = true) ∧ k ∉ v.refreshed) ∧ gs.any (hit p) = true := by
  simp [cuts]

/-- **One turn on texts is one turn on groups**, and the flags go the same way. -/
theorem newValue_spells {p : Str} (hp : IsDigits p) (k : Str) (v : Loop) {value : Option Str}
    {gs : List (DocGroup Char)} (h : SpellsAt value gs) :
    Spells (newValue p k v value).1 (turnGroups p k v gs) ∧
    (⟨v.i + 1, (newValue p k v value).2.1, (newValue p k v value).2.2⟩ : Loop)
      = turnLoop p k v gs := by
  cases value with
  | none =>
    obtain rfl : gs = [] := h
    have hcut : cuts p k v [] = false := by simp [cuts]
    rw [turnGroups, turnLoop, hcut]
    exact ⟨spells_first hp (isDigits_decimal _), rfl⟩
  | some t =>
    have ht : Spells t gs := h
    rcases spells_indexOf ht hp with ⟨hnone, hno⟩ | ⟨pre, c, post, hsep, rfl, rfl, hpre, hc, hloc⟩
    · have hcut : cuts p k v gs = false := by simp [cuts, any_hit_of_none hno]
      have hadd := spells_addPosting ht hp v.i
      rw [hnone] at hadd
      rw [turnGroups, turnLoop, hcut, newValue, hnone]
      exact ⟨hadd, rfl⟩
    · have hany : (pre.map Chunk.group ++ c.group :: post.map Chunk.group).any (hit p) = true :=
        any_hit_of_split hc
      by_cases hflags : (v.i = 0 ∨ v.rewrite = true) ∧ k ∉ v.refreshed
      · have hcut := cuts_iff.mpr ⟨hflags, hany⟩
        obtain ⟨hrem, hsep'⟩ := spells_removeGroup hsep
        have hspell : Spells (chunksText (pre ++ post))
            (pre.map Chunk.group ++ post.map Chunk.group) :=
          ⟨pre ++ post, hsep', rfl, by rw [List.map_append]⟩
        rw [turnGroups, turnLoop, hcut, newValue, hloc]
        simp only [if_pos hflags, if_true, hrem]
        rw [remove_of_split hpre hc]
        exact ⟨spells_addPosting hspell hp v.i, trivial⟩
      · have hcut : ¬ cuts p k v (pre.map Chunk.group ++ c.group :: post.map Chunk.group) = true :=
          fun h => hflags (cuts_iff.mp h).1
        have hadd := spells_addPosting ht hp v.i
        rw [hloc] at hadd
        rw [turnGroups, turnLoop, if_neg hcut, if_neg hcut, newValue, hloc]
        simp only [if_neg hflags]
        exact ⟨hadd, trivial⟩

end SearchEngine

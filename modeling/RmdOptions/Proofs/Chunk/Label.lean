import RmdOptions.Proofs.Chunk.Row
import RmdOptions.Proofs.Options.Plain

/-!
# Labels of chunks

A header is cut at all of its commas, and those between quotes are among them. So a label that
stands behind the engine is the label of the chunk as long as nothing behind a later comma reads
like an explicit one, be it an option or a part of a caption.

* `Header.GivesLabel`, `Header.labelValue?_trim` — pieces that read like an explicit label;
* `Header.captioned`, `Header.label?_captioned` — a header with a label and a caption;
* `Chunk.label_captioned` — **the label of a chunk with a caption**.
-/

namespace RmdOptions

namespace Header

/-! ## Pieces of a header -/

/-- A piece of a header reads like an explicit label: what stands before the first sign of equality
is its key. -/
def GivesLabel (piece value : Text) : Prop :=
  ∃ key, piece = key ++ '=' :: value ∧ '=' ∉ key ∧ key.trim = ['l', 'a', 'b', 'e', 'l']

theorem labelValue?_trim_append {key : Text} (h : '=' ∉ key) (value : Text) :
    labelValue? (Text.trim (key ++ '=' :: value)) =
      if Text.trim key = ['l', 'a', 'b', 'e', 'l'] then
        some (Text.unquote ['\x22', '\x27'] (Text.trim value))
      else none := by
  have hkey : ∀ c ∈ Text.trimStart key, (c != '=') = true := fun c hc =>
    bne_iff_ne.mpr fun heq => h (heq ▸ (List.dropWhile_suffix isWhiteSpace).subset hc)
  obtain ⟨htake, hdrop⟩ := Text.takeWhile_dropWhile_append (p := (· != '='))
    (u := '=' :: Text.trimEnd value) hkey (by simp)
  rw [labelValue?, Text.trim_append_cons (by decide), htake, hdrop]
  dsimp only
  rw [Text.trim_trimStart, Text.trim_trimEnd]

/-- A piece that reads like a label gives its value. -/
theorem labelValue?_of_gives {piece value : Text} (h : GivesLabel piece value) :
    labelValue? (Text.trim piece) = some (Text.unquote ['\x22', '\x27'] (Text.trim value)) := by
  obtain ⟨key, rfl, hkey, hlabel⟩ := h
  rw [labelValue?_trim_append hkey, if_pos hlabel]

/-- Any other gives none. -/
theorem labelValue?_of_not_gives {piece : Text} (h : ∀ value, ¬ GivesLabel piece value) :
    labelValue? (Text.trim piece) = none := by
  by_cases hsign : '=' ∈ piece
  · obtain ⟨key, value, rfl, hkey⟩ := List.eq_append_cons_of_mem hsign
    rw [labelValue?_trim_append hkey, if_neg fun hlabel => h value ⟨key, rfl, hkey, hlabel⟩]
  · have hcut : (Text.trim piece).dropWhile (· != '=') = [] :=
      List.dropWhile_eq_nil_iff.mpr fun c hc =>
        bne_iff_ne.mpr fun heq => hsign (heq ▸ Text.mem_of_mem_trim hc)
    rw [labelValue?, hcut]

/-- So pieces give no label if none of them reads like one. -/
theorem findSome?_of_not_gives {pieces : List Text}
    (h : ∀ piece ∈ pieces, ∀ value, ¬ GivesLabel piece value) :
    (pieces.map Text.trim).findSome? labelValue? = none := by
  refine List.findSome?_eq_none_iff.mpr fun part hpart => ?_
  obtain ⟨piece, hpiece, rfl⟩ := List.mem_map.mp hpart
  exact labelValue?_of_not_gives (h piece hpiece)

/-! ## A header with a caption -/

/-- A label that is a word of ASCII letters and digits, underscores, points and hyphens. -/
def IsLabelWord (label : Text) : Prop :=
  label ≠ [] ∧ ∀ c ∈ label, isWordChar c = true ∨ c = '-'

/-- The options of a header with a label and a caption. -/
def captionOptions (label caption : Text) : Text :=
  ' ' :: (label ++ ',' :: (" fig.cap=\"".toList ++ (caption ++ ['\x22'])))

/-- A header with a label and a caption. -/
def captioned (label caption : Text) : Text :=
  "\x60\x60\x60".toList ++ '{' :: 'r' :: (captionOptions label caption ++ ['}'])

/-- The pieces of the caption behind its commas; the closing quote is in the last one. -/
def captionPieces (caption : Text) : List Text :=
  (Text.cutAt (· == ',') (caption ++ ['\x22'])).tail

/-- A word has no white space, and no commas or signs of equality. -/
theorem IsLabelWord.plain {label : Text} (h : IsLabelWord label) :
    ∀ c ∈ label, isWhiteSpace c = false ∧ c ≠ ',' ∧ c ≠ '=' := by
  intro c hc
  rcases h.2 c hc with hword | rfl
  · exact forall_ascii (p := fun c => isWordChar c = true →
      isWhiteSpace c = false ∧ c ≠ ',' ∧ c ≠ '=') (by decide +kernel)
      (toNat_lt_of_isWordChar hword) hword
  · decide

/-- The row of such a header. -/
def captionRow {label caption : Text} (hlabel : IsLabelWord label) (hcaption : '\n' ∉ caption) :
    OpeningRow where
  indented := false
  longer := 0
  gap := []
  letter := 'r'
  options := captionOptions label caption
  trail := []
  gap_white := List.forall_mem_nil _
  letter_eq := Or.inl rfl
  separated := by
    rintro c ⟨⟩
    decide
  unbroken := by
    have hbreak : '\n' ∉ label := fun hc => absurd (hlabel.plain _ hc).1 (by decide)
    simp [captionOptions, hbreak, hcaption]
  trail_white := List.forall_mem_nil _

theorem text_captionRow {label caption : Text} (hlabel : IsLabelWord label)
    (hcaption : '\n' ∉ caption) : (captionRow hlabel hcaption).text = captioned label caption :=
  congrArg ("\x60\x60\x60".toList ++ ·) (List.append_nil (captionRow hlabel hcaption).braced)

/-- What such a header is cut into: its label, the start of its caption, and further pieces. -/
theorem parts_captioned {label caption : Text} (hlabel : IsLabelWord label)
    (hcaption : '\n' ∉ caption) :
    ∃ first, parts (captioned label caption) =
      ((' ' :: label) :: (" fig.cap".toList ++ '=' :: first) :: captionPieces caption).map
        Text.trim := by
  obtain ⟨first, rest, hcut⟩ :=
    List.exists_cons_of_ne_nil (Text.cutAt_ne_nil (· == ',') (caption ++ ['\x22']))
  refine ⟨'\x22' :: first, ?_⟩
  -- the closing quote keeps the braces of the caption
  have hkept : Text.dropEndWhile (· == '}') (captionOptions label caption) =
      captionOptions label caption := by
    have hoptions : captionOptions label caption =
        (' ' :: (label ++ ',' :: (" fig.cap=\"".toList ++ caption))) ++ ['\x22'] := by
      simp [captionOptions]
    rw [hoptions]
    exact Text.dropEndWhile_append_cons (by decide) _ []
  have hlabel' : ∀ c ∈ ' ' :: label, (c == ',') = false := by
    intro c hc
    rcases List.mem_cons.mp hc with rfl | hc
    · decide
    · exact beq_eq_false_iff_ne.mpr (hlabel.plain c hc).2.1
  have hstart : ∀ c ∈ " fig.cap=\"".toList, (c == ',') = false := by decide
  rw [← text_captionRow hlabel hcaption, OpeningRow.parts_text, captionPieces, hcut]
  refine congrArg (List.map Text.trim) (Eq.trans (congrArg _ hkept) ?_)
  have hpieces := Text.cutAt_append_cons (c := ',') hlabel' (by decide)
    (" fig.cap=\"".toList ++ (caption ++ ['\x22']))
  rw [Text.cutAt_append hstart, hcut] at hpieces
  exact hpieces

/-- The label of such a header: that of the first piece of its caption that reads like a label, or
else its own. -/
theorem label?_captioned {label caption : Text} (hlabel : IsLabelWord label)
    (hcaption : '\n' ∉ caption) :
    label? (captioned label caption) =
      (((captionPieces caption).map Text.trim).findSome? labelValue?).or (some label) := by
  obtain ⟨first, hparts⟩ := parts_captioned hlabel hcaption
  have hsign : '=' ∉ ' ' :: label := by
    intro hmem
    rcases List.mem_cons.mp hmem with h | h
    · cases h
    · exact (hlabel.plain _ h).2.2 rfl
  -- the label is no option, and the caption has a key of its own
  have hword : labelValue? (Text.trim (' ' :: label)) = none :=
    labelValue?_of_not_gives fun value ⟨key, hpiece, _⟩ => hsign (by simp [hpiece])
  have hcap : labelValue? (Text.trim (" fig.cap".toList ++ '=' :: first)) = none := by
    have hkey : '=' ∉ " fig.cap".toList := by decide
    rw [labelValue?_trim_append hkey, if_neg (by decide)]
  have htrim : Text.trim (' ' :: label) = label := by
    have hspace : ∀ c ∈ [' '], isWhiteSpace c = true := by decide
    have htrim := Text.trim_eq (u := []) hspace (List.forall_mem_nil _)
      (fun c hc => (hlabel.plain c (List.mem_of_mem_head? hc)).1)
      (fun c hc => (hlabel.plain c (List.mem_of_getLast? hc)).1)
    rwa [List.append_nil] at htrim
  have hbare (more : List Text) : bareLabel? (label :: more) = some label := by
    have hempty : label.isEmpty = false := by simpa using hlabel.1
    have hcontains : label.contains '=' = false := by
      simpa using fun h => (hlabel.plain _ h).2.2 rfl
    rw [bareLabel?, hempty, hcontains]
    rfl
  rw [label?, hparts, List.map_cons, List.map_cons, List.findSome?_cons, hword, List.findSome?_cons,
    hcap, htrim, hbare]

end Header

namespace Chunk

open Header

/-! ## Chunks with a caption -/

/-- **The label of a chunk with a caption.** A header with a label and a caption opens a chunk. The
chunk has the label that stands behind the engine unless a piece of the caption that follows a comma
reads like an explicit label: then the first such piece gives the label. -/
theorem label_captioned {label caption : Text} (hlabel : IsLabelWord label)
    (hcaption : '\n' ∉ caption) :
    Fence.opensChunk (captioned label caption) = true ∧ ∀ (lexer : Lexer) (t : Text),
      (∀ before more, t.lines = before ++ captioned label caption :: more →
        (Region.prose.readLines lexer 0 before).2 = .prose →
          ∃ chunk ∈ ofTokens (lexer.documentTokens t), chunk.header = ⟨before.length, 0⟩) ∧
      ∀ chunk ∈ ofTokens (lexer.documentTokens t),
        t.lines[chunk.header.row]? = some (captioned label caption) →
          chunk.engine = ['r'] ∧
          ((∀ piece ∈ captionPieces caption, ∀ value, ¬ GivesLabel piece value) →
            chunk.label = some label) ∧
          ∀ earlier piece later value, captionPieces caption = earlier ++ piece :: later →
            (∀ other ∈ earlier, ∀ value, ¬ GivesLabel other value) → GivesLabel piece value →
              chunk.label = some (Text.unquote ['\x22', '\x27'] (Text.trim value)) := by
  have hrow := text_captionRow hlabel hcaption
  have hopens : Fence.opensChunk (captioned label caption) = true :=
    hrow ▸ Fence.opensChunk_text _
  refine ⟨hopens, fun lexer t => ⟨fun before more hlines hprose => ?_, ?_⟩⟩
  · exact exists_mem_of_opens hlines hprose hopens
  · intro chunk hchunk hline
    obtain ⟨line, hline', -, -, hengine, hlabel'⟩ := exists_line_of_mem hchunk
    have hsame : line = captioned label caption := Option.some.inj (hline'.symm.trans hline)
    rw [hsame] at hengine hlabel'
    rw [label?_captioned hlabel hcaption] at hlabel'
    refine ⟨?_, fun hpieces => ?_, fun earlier piece later value hpieces hearlier hpiece => ?_⟩
    · rw [hengine, ← hrow, OpeningRow.engine_text]
      rfl
    · rw [hlabel', findSome?_of_not_gives hpieces, Option.none_or]
    · rw [hlabel', hpieces, List.map_append, List.findSome?_append,
        findSome?_of_not_gives hearlier, Option.none_or, List.map_cons, List.findSome?_cons,
        labelValue?_of_gives hpiece]
      rfl

/-- Commas, braces and signs of equality do no harm as long as nothing reads like a label. -/
theorem label_captioned_sample :
    let t : Text := "\x60\x60\x60\x7br plot, fig.cap=\"\x7ba\x7d, b = c\"\x7d\n\x60\x60\x60".toList
    ∃ chunk ∈ ofTokens ((Lexer.closedBy ['\x60', '\x60', '\x60']).documentTokens t),
      chunk.label = some "plot".toList := by
  intro t
  have hword : IsLabelWord "plot".toList := ⟨by decide, by decide⟩
  have hline : t.lines = [] ++ captioned "plot".toList "\x7ba\x7d, b = c".toList ::
      ["\x60\x60\x60".toList] := by
    decide +kernel
  have hfeed : '\n' ∉ "\x7ba\x7d, b = c".toList := by decide
  obtain ⟨-, hchunks⟩ := label_captioned hword hfeed
  obtain ⟨hexists, hlabels⟩ := hchunks (Lexer.closedBy ['\x60', '\x60', '\x60']) t
  obtain ⟨chunk, hchunk, hheader⟩ := hexists [] _ hline rfl
  have hheader' : t.lines[chunk.header.row]? =
      some (captioned "plot".toList "\x7ba\x7d, b = c".toList) := by
    rw [hheader, hline]
    rfl
  refine ⟨chunk, hchunk, (hlabels chunk hchunk hheader').2.1 fun piece hpiece value hgives => ?_⟩
  have hpieces : captionPieces "\x7ba\x7d, b = c".toList = [" b = c\"".toList] := by decide
  have hnone : labelValue? (Text.trim " b = c\"".toList) = none := by decide
  rw [hpieces, List.mem_singleton] at hpiece
  have hsome := labelValue?_of_gives hgives
  rw [hpiece, hnone] at hsome
  cases hsome

/-- A part of a caption makes its chunk the setup chunk, and the one that has this label is passed
over. -/
theorem label_captioned_setup :
    let t : Text := ("\x60\x60\x60\x7br plot, fig.cap=\"a, label=setup, b\"\x7d\n\x60\x60\x60\n" ++
      "\x60\x60\x60{r setup}\n\x60\x60\x60\n").toList
    let chunks := ofTokens ((Lexer.closedBy ['\x60', '\x60', '\x60']).documentTokens t)
    t.lines.head? = some (captioned "plot".toList "a, label=setup, b".toList) ∧
      chunks.map (·.label) = [some setupLabel, some setupLabel] ∧
      (setup? chunks).map (·.header) = some ⟨0, 0⟩ := by
  decide +kernel

end Chunk

end RmdOptions

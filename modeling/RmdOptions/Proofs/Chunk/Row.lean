import RmdOptions.Proofs.Text.Pieces
import RmdOptions.Proofs.Token.Layout

/-!
# Rows that open chunks

The pattern for rows that open a chunk and the reader of headers were written apart. They agree:
a row that the pattern accepts is made up of known parts, and from any such row the reader takes
the letter in the brace as the engine and all that follows it as options. So a chunk that is found
is one of R code.

* `OpeningRow`, `Fence.opensChunk_iff` — **the rows that open a chunk**, by their parts;
* `OpeningRow.engine_text`, `OpeningRow.parts_text` — what is read of such a row;
* `Region.opens_of_mem_read`, `Region.opens_of_mem_readLines` — where they are found;
* `Chunk.map_heading_ofTokens` — chunks are the rows that open them;
* `Chunk.exists_line_of_mem`, `Chunk.isR_of_mem` — **every chunk has a line that opens it**.
-/

namespace RmdOptions

/-! ## The pattern -/

/-- A row that opens an R chunk: at least three backticks that may be indented by four spaces, and a
header in braces. -/
structure OpeningRow where
  /-- whether it is indented -/
  indented : Bool
  /-- the number of backticks beyond three -/
  longer : Nat
  /-- what stands before the brace -/
  gap : Text
  /-- the letter behind the brace -/
  letter : Char
  /-- what stands between the letter and the closing brace -/
  options : Text
  /-- what stands behind the closing brace -/
  trail : Text
  /-- it is white space -/
  gap_white : ∀ c ∈ gap, isWhiteSpace c = true
  /-- it stands for R -/
  letter_eq : letter = 'r' ∨ letter = 'R'
  /-- they are set apart from the letter -/
  separated : ∀ c ∈ options.head?, Header.endsEngine c = true
  /-- they stand on the same line -/
  unbroken : '\n' ∉ options.tail
  /-- it is white space -/
  trail_white : ∀ c ∈ trail, isWhiteSpace c = true

namespace OpeningRow

/-- The indentation of a row, if it is indented. -/
def indent (indented : Bool) : Text := if indented then [' ', ' ', ' ', ' '] else []

/-- The backticks of a row. -/
def ticks (longer : Nat) : Text := List.replicate (longer + 3) '\x60'

theorem forall_mem_ticks (longer : Nat) : ∀ c ∈ ticks longer, (c == '\x60') = true :=
  fun _ hc => beq_iff_eq.mpr (List.eq_of_mem_replicate hc)

/-- The header with its braces. -/
def braced (row : OpeningRow) : Text := '{' :: row.letter :: (row.options ++ ['}'])

/-- The text of a row. -/
def text (row : OpeningRow) : Text :=
  indent row.indented ++ (ticks row.longer ++ (row.gap ++ (row.braced ++ row.trail)))

/-- The backticks end where the white space behind them begins, or the brace. -/
theorem ne_tick (row : OpeningRow) (rest : Text) :
    ∀ c ∈ (row.gap ++ (row.braced ++ rest)).head?, c ≠ '\x60' := by
  intro c hc
  have hwhite := row.gap_white
  cases hgap : row.gap with
  | nil =>
    rw [hgap] at hc
    obtain rfl := Option.some.inj hc
    decide
  | cons d gap =>
    rw [hgap] at hc hwhite
    obtain rfl := Option.some.inj hc
    rintro rfl
    exact absurd (hwhite _ List.mem_cons_self) (by decide)

end OpeningRow

namespace Fence

/-- A line is what is left of it behind its indentation, and that. -/
theorem exists_indent (line : Text) : ∃ indented,
    line = OpeningRow.indent indented ++ (Text.after? [' ', ' ', ' ', ' '] line).getD line := by
  cases hafter : Text.after? [' ', ' ', ' ', ' '] line with
  | none => exact ⟨false, rfl⟩
  | some rest => exact ⟨true, Text.after?_eq_some_iff.mp hafter⟩

/-- What is left of a row behind its indentation. -/
theorem after?_indent (indented : Bool) (longer : Nat) (rest : Text) :
    (Text.after? [' ', ' ', ' ', ' ']
      (OpeningRow.indent indented ++ (OpeningRow.ticks longer ++ rest))).getD
        (OpeningRow.indent indented ++ (OpeningRow.ticks longer ++ rest)) =
      OpeningRow.ticks longer ++ rest := by
  cases indented with
  | true => exact congrArg (Option.getD · _) (Text.after?_eq_some_iff.mpr rfl)
  | false => rfl

/-- Three backticks or more. -/
theorem exists_ticks {t : Text} (h : 3 ≤ (t.takeWhile (· == '\x60')).length) :
    ∃ longer, t.takeWhile (· == '\x60') = OpeningRow.ticks longer := by
  refine ⟨(t.takeWhile (· == '\x60')).length - 3, ?_⟩
  rw [OpeningRow.ticks, Nat.sub_add_cancel h]
  exact List.eq_replicate_of_mem fun c hc => by simpa using List.mem_takeWhile_imp hc

/-- What follows the backticks of a row. -/
theorem afterTicks?_eq_some_iff {line rest : Text} :
    afterTicks? line = some rest ↔
      (∃ indented longer, line = OpeningRow.indent indented ++ (OpeningRow.ticks longer ++ rest)) ∧
        rest.head? ≠ some '\x60' := by
  constructor
  · intro h
    obtain ⟨indented, hline⟩ := exists_indent line
    rw [afterTicks?] at h
    generalize (Text.after? [' ', ' ', ' ', ' '] line).getD line = unindented at h hline
    split at h
    · next hlength =>
      cases h
      obtain ⟨longer, hticks⟩ := exists_ticks hlength
      refine ⟨⟨indented, longer, ?_⟩, fun htick => ?_⟩
      · rw [← hticks, List.takeWhile_append_dropWhile]
        exact hline
      · exact absurd (Text.eq_false_of_head?_dropWhile htick) (by decide)
    · cases h
  · rintro ⟨⟨indented, longer, rfl⟩, htick⟩
    have hrest : ∀ c ∈ rest.head?, (c == '\x60') = false := fun c hc =>
      beq_eq_false_iff_ne.mpr fun h => htick (h ▸ hc)
    obtain ⟨htake, hdrop⟩ :=
      Text.takeWhile_dropWhile_append (OpeningRow.forall_mem_ticks longer) hrest
    rw [afterTicks?, after?_indent, htake, hdrop, if_pos]
    rw [OpeningRow.ticks, List.length_replicate]
    exact Nat.le_add_left 3 longer

/-- What follows the letter of a header. -/
theorem endsHeader_iff {t : Text} :
    endsHeader t = true ↔ ∃ options trail, t = options ++ '}' :: trail ∧
      (∀ c ∈ options.head?, Header.endsEngine c = true) ∧ '\n' ∉ options.tail ∧
      ∀ c ∈ trail, isWhiteSpace c = true := by
  constructor
  · intro h
    obtain ⟨trail, ht, htrail⟩ := Text.exists_eq_dropEndWhile isWhiteSpace t
    rw [endsHeader] at h
    split at h
    · next reversed hend =>
      have hkept : Text.dropEndWhile isWhiteSpace t = reversed.reverse ++ ['}'] := by
        rw [← List.reverse_reverse (Text.dropEndWhile isWhiteSpace t), ← List.reverse_cons]
        exact congrArg List.reverse hend
      rw [hkept, List.append_assoc] at ht
      refine ⟨reversed.reverse, trail, ht, ?_⟩
      split at h
      · next hnil =>
        rw [hnil]
        refine ⟨?_, List.not_mem_nil, htrail⟩
        rintro c ⟨⟩
      · next separator options hcons =>
        rw [hcons]
        simp only [Bool.and_eq_true, List.all_eq_true, bne_iff_ne] at h
        refine ⟨?_, fun hfeed => h.2 _ hfeed rfl, htrail⟩
        rintro c ⟨⟩
        exact h.1
    · cases h
  · rintro ⟨options, trail, rfl, hseparated, hfeed, htrail⟩
    have hend : (Text.trimEnd (options ++ '}' :: trail)).reverse = '}' :: options.reverse := by
      have hnil := Text.dropEndWhile_append htrail []
      rw [List.nil_append] at hnil
      rw [Text.trimEnd, Text.dropEndWhile_append_cons (by decide), hnil, List.reverse_append]
      rfl
    rw [endsHeader, hend]
    split
    · next reversed heq =>
      obtain ⟨-, rfl⟩ := List.cons.inj heq
      rw [List.reverse_reverse]
      split
      · rfl
      · next separator more =>
        rw [Bool.and_eq_true, List.all_eq_true]
        exact ⟨hseparated separator rfl, fun c hc =>
          bne_iff_ne.mpr fun heq => hfeed (heq ▸ hc)⟩
    · next hne => exact absurd rfl (hne _)

/-- A line that the pattern accepts has these parts. -/
theorem exists_openingRow {line : Text} (h : opensChunk line = true) :
    ∃ row : OpeningRow, row.text = line := by
  rw [opensChunk] at h
  split at h
  · cases h
  · next rest hticks =>
    obtain ⟨⟨indented, longer, rfl⟩, -⟩ := afterTicks?_eq_some_iff.mp hticks
    split at h
    · next letter more hstart =>
      simp only [Bool.and_eq_true, Bool.or_eq_true, beq_iff_eq] at h
      obtain ⟨options, trail, rfl, hseparated, hfeed, htrail⟩ := endsHeader_iff.mp h.2
      obtain ⟨gap, hgap, rfl⟩ : ∃ gap, (∀ c ∈ gap, isWhiteSpace c = true) ∧
          rest = gap ++ '{' :: letter :: (options ++ '}' :: trail) := by
        refine ⟨rest.takeWhile isWhiteSpace, fun c hc => List.mem_takeWhile_imp hc, ?_⟩
        rw [← hstart, Text.trimStart, List.takeWhile_append_dropWhile]
      refine ⟨⟨indented, longer, gap, letter, options, trail, hgap, h.1, hseparated, hfeed,
        htrail⟩, ?_⟩
      simp [OpeningRow.text, OpeningRow.braced]
    · cases h

/-- A line that has these parts is accepted. -/
theorem opensChunk_text (row : OpeningRow) : opensChunk row.text = true := by
  have hticks : afterTicks? row.text = some (row.gap ++ (row.braced ++ row.trail)) :=
    afterTicks?_eq_some_iff.mpr
      ⟨⟨row.indented, row.longer, rfl⟩, fun htick => row.ne_tick row.trail _ htick rfl⟩
  have hstart : (row.gap ++ (row.braced ++ row.trail)).trimStart = row.braced ++ row.trail := by
    rw [Text.trimStart, List.dropWhile_append_of_pos row.gap_white]
    exact List.dropWhile_cons_of_neg (by decide)
  have hcons : row.braced ++ row.trail =
      '{' :: row.letter :: (row.options ++ '}' :: row.trail) := by
    simp [OpeningRow.braced]
  have hends : endsHeader (row.options ++ '}' :: row.trail) = true :=
    endsHeader_iff.mpr ⟨_, _, rfl, row.separated, row.unbroken, row.trail_white⟩
  have haccepted : ((row.letter == 'r' || row.letter == 'R') &&
      endsHeader (row.options ++ '}' :: row.trail)) = true := by
    rw [hends, Bool.and_true, Bool.or_eq_true, beq_iff_eq, beq_iff_eq]
    exact row.letter_eq
  rw [opensChunk, hticks]
  dsimp only
  rw [hstart, hcons]
  exact haccepted

/-- **The rows that open an R chunk**, by their parts. -/
theorem opensChunk_iff {line : Text} :
    opensChunk line = true ↔ ∃ row : OpeningRow, row.text = line := by
  constructor
  · exact exists_openingRow
  · rintro ⟨row, rfl⟩
    exact opensChunk_text row

end Fence

/-! ## Headers of such rows -/

namespace OpeningRow

theorem braced_eq (row : OpeningRow) :
    row.braced = '{' :: ((row.letter :: row.options) ++ ['}']) := rfl

/-- The letter stays what it is wherever it is looked at. -/
theorem letter_ne (row : OpeningRow) :
    row.letter ≠ '{' ∧ row.letter ≠ '}' ∧ Header.endsEngine row.letter = false := by
  rcases row.letter_eq with h | h
  · rw [h]
    decide
  · rw [h]
    decide

/-- A header without the fence and braces around it. -/
theorem inner_text (row : OpeningRow) :
    Header.inner row.text = row.letter :: Text.dropEndWhile (· == '}') row.options := by
  have hindent : ∀ c ∈ indent row.indented, isWhiteSpace c = true := by
    cases row.indented <;> decide
  have htext : row.text =
      indent row.indented ++ ((ticks row.longer ++ (row.gap ++ row.braced)) ++ row.trail) := by
    simp [text]
  have hlast (front : Text) : ∀ c ∈ (front ++ row.braced).getLast?, isWhiteSpace c = false := by
    rw [braced_eq, ← List.cons_append, ← List.append_assoc, List.getLast?_append]
    rintro c ⟨⟩
    decide
  -- the white space around the row, the backticks, and the white space before the brace
  have htrim : row.text.trim = ticks row.longer ++ (row.gap ++ row.braced) := by
    rw [htext]
    refine Text.trim_eq hindent row.trail_white ?_ ?_
    · rintro c ⟨⟩
      decide
    · rw [← List.append_assoc]
      exact hlast _
  have hdrop : (row.text.trim).dropWhile (· == '\x60') = row.gap ++ row.braced := by
    have hrest : ∀ c ∈ (row.gap ++ row.braced).head?, (c == '\x60') = false := fun c hc =>
      beq_eq_false_iff_ne.mpr (row.ne_tick [] c (by rwa [List.append_nil]))
    rw [htrim]
    exact (Text.takeWhile_dropWhile_append (forall_mem_ticks row.longer) hrest).2
  have hbraced : Text.trim (row.gap ++ row.braced) = row.braced := by
    have hfirst : ∀ c ∈ row.braced.head?, isWhiteSpace c = false := by
      rintro c ⟨⟩
      decide
    have htrim := Text.trim_eq row.gap_white (List.forall_mem_nil _) hfirst (hlast [])
    rwa [List.append_nil] at htrim
  obtain ⟨hopen, hclose, -⟩ := row.letter_ne
  have hend : Text.dropEndWhile (· == '}') ((row.letter :: row.options) ++ ['}']) =
      row.letter :: Text.dropEndWhile (· == '}') row.options := by
    rw [Text.dropEndWhile_append (by decide)]
    exact Text.dropEndWhile_append_cons (by simp [hclose]) [] row.options
  rw [Header.inner, hdrop, hbraced, braced_eq, List.dropWhile_cons_of_pos (by decide),
    List.cons_append, List.dropWhile_cons_of_neg (by simp [hopen])]
  exact hend

/-- Its letter ends where the options begin. -/
theorem cut_inner (row : OpeningRow) :
    (Header.inner row.text).takeWhile (!Header.endsEngine ·) = [row.letter] ∧
      (Header.inner row.text).dropWhile (!Header.endsEngine ·) =
        Text.dropEndWhile (· == '}') row.options := by
  have hletter : ∀ c ∈ [row.letter], (!Header.endsEngine c) = true := by
    intro c hc
    rw [List.mem_singleton.mp hc, row.letter_ne.2.2]
    rfl
  have hoptions : ∀ c ∈ (Text.dropEndWhile (· == '}') row.options).head?,
      (!Header.endsEngine c) = false := fun c hc => by
    rw [row.separated c (Text.mem_head?_of_dropEndWhile hc)]
    rfl
  rw [inner_text, ← List.singleton_append]
  exact Text.takeWhile_dropWhile_append hletter hoptions

/-- **The engine is the letter.** -/
theorem engine_text (row : OpeningRow) : Header.engine row.text = [row.letter] := row.cut_inner.1

/-- **The options are what follows it.** -/
theorem parts_text (row : OpeningRow) :
    Header.parts row.text =
      (Text.cutAt (· == ',') (Text.dropEndWhile (· == '}') row.options)).map Text.trim := by
  rw [Header.parts, row.cut_inner.2]

end OpeningRow

/-- **A row that opens a chunk names R as its engine**, by a small letter or a capital one. -/
theorem Fence.engine_of_opensChunk {line : Text} (h : opensChunk line = true) :
    Header.engine line = ['r'] ∨ Header.engine line = ['R'] := by
  obtain ⟨row, rfl⟩ := exists_openingRow h
  rw [row.engine_text]
  exact row.letter_eq.imp (congrArg (fun c => [c])) (congrArg (fun c => [c]))

/-! ## Where they are found -/

section Tokens

variable {lexer : Lexer} {row : Nat} {token : Token} {t : Text} {ls : List Text} {line : Text}

/-- A line opens a chunk where it stands outside all blocks and is accepted, and then it is a token
as a whole. -/
theorem Region.opens_of_mem_read {region : Region}
    (h : token ∈ (region.read lexer row line).1) (hkind : token.kind = .chunkStart) :
    Fence.opensChunk line = true ∧ token = wholeLine .chunkStart row line := by
  by_cases hopens : region = .prose ∧ Fence.opensChunk line = true
  · obtain ⟨rfl, hopens⟩ := hopens
    rw [read, if_pos hopens] at h
    exact ⟨hopens, List.mem_singleton.mp h⟩
  · have hne : region ≠ .prose ∨ Fence.opensChunk line = false := by
      rwa [not_and_or, Bool.not_eq_true] at hopens
    exact absurd hkind (read_ne_chunkStart hne token h)

/-- The lines that open chunks among some lines. -/
theorem Region.opens_of_mem_readLines {region : Region}
    (h : token ∈ (region.readLines lexer row ls).1) (hkind : token.kind = .chunkStart) :
    ∃ i line, ls[i]? = some line ∧ Fence.opensChunk line = true ∧
      token = wholeLine .chunkStart (row + i) line := by
  induction ls generalizing region row with
  | nil => cases h
  | cons line ls ih =>
    rw [readLines_cons] at h
    rcases List.mem_append.mp h with h | h
    · exact ⟨0, line, rfl, opens_of_mem_read h hkind⟩
    · obtain ⟨i, found, hline, hopens, htoken⟩ := ih h
      refine ⟨i + 1, found, hline, hopens, ?_⟩
      rw [htoken, Nat.add_assoc, Nat.add_comm 1]

/-- **The tokens that start chunks are lines that open them.** -/
theorem Lexer.opens_of_mem_documentTokens (h : token ∈ lexer.documentTokens t)
    (hkind : token.kind = .chunkStart) :
    ∃ row line, t.lines[row]? = some line ∧ Fence.opensChunk line = true ∧
      token = wholeLine .chunkStart row line := by
  rw [documentTokens, documentLines_eq _ (Text.lines_ne_nil t)] at h
  rcases List.mem_append.mp h with h | h
  · obtain ⟨i, line, hline, hopens, htoken⟩ := Region.opens_of_mem_readLines h hkind
    rw [Nat.zero_add] at htoken
    exact ⟨i, line, hline, hopens, htoken⟩
  · exact absurd hkind (Region.leave_ne_chunkStart _ _ token h)

end Tokens

/-! ## The chunks that they open -/

namespace Chunk

/-- What a chunk has of its header. -/
def heading (chunk : Chunk) : Position × Text × Option Text :=
  (chunk.header, chunk.engine, chunk.label)

/-- **Chunks are the rows that open them**, one for each and in their order. -/
theorem map_heading_ofTokens (tokens : List Token) :
    (ofTokens tokens).map heading = (tokens.filter (·.kind = .chunkStart)).map fun token =>
      (token.start, Header.engine token.text, Header.label? token.text) := by
  induction tokens with
  | nil => rfl
  | cons token later ih =>
    rw [ofTokens]
    split
    · next hkind =>
      rw [List.map_cons, ih, List.filter_cons_of_pos (by simpa using hkind), List.map_cons, heading]
    · next hkind => rw [ih, List.filter_cons_of_neg (by simpa using hkind)]

variable {lexer : Lexer} {t : Text} {chunk : Chunk} {tokens : List Token}

/-- The row of a chunk. -/
theorem exists_token_of_mem (h : chunk ∈ ofTokens tokens) :
    ∃ token ∈ tokens, token.kind = .chunkStart ∧ chunk.header = token.start ∧
      chunk.engine = Header.engine token.text ∧ chunk.label = Header.label? token.text := by
  have hmem := List.mem_map_of_mem (f := heading) h
  rw [map_heading_ofTokens] at hmem
  obtain ⟨token, htoken, heq⟩ := List.mem_map.mp hmem
  obtain ⟨htoken, hkind⟩ := List.mem_filter.mp htoken
  rw [heading, Prod.mk.injEq, Prod.mk.injEq] at heq
  exact ⟨token, htoken, of_decide_eq_true hkind, heq.1.symm, heq.2.1.symm, heq.2.2.symm⟩

/-- The chunk of a row. -/
theorem exists_mem_of_token {token : Token} (h : token ∈ tokens)
    (hkind : token.kind = .chunkStart) :
    ∃ chunk ∈ ofTokens tokens, chunk.header = token.start := by
  have hmem : (token.start, Header.engine token.text, Header.label? token.text) ∈
      (ofTokens tokens).map heading := by
    rw [map_heading_ofTokens]
    exact List.mem_map_of_mem (List.mem_filter.mpr ⟨h, decide_eq_true hkind⟩)
  obtain ⟨chunk, hchunk, heq⟩ := List.mem_map.mp hmem
  exact ⟨chunk, hchunk, congrArg Prod.fst heq⟩

/-- **Every chunk has a line that opens it**, and what it has of its header is read of this line. -/
theorem exists_line_of_mem (h : chunk ∈ ofTokens (lexer.documentTokens t)) :
    ∃ line, t.lines[chunk.header.row]? = some line ∧ Fence.opensChunk line = true ∧
      chunk.header = ⟨chunk.header.row, 0⟩ ∧ chunk.engine = Header.engine line ∧
      chunk.label = Header.label? line := by
  obtain ⟨token, htoken, hkind, hheader, hengine, hlabel⟩ := exists_token_of_mem h
  obtain ⟨row, line, hline, hopens, rfl⟩ := lexer.opens_of_mem_documentTokens htoken hkind
  rw [hheader]
  exact ⟨line, hline, hopens, rfl, hengine, hlabel⟩

/-- So it holds R code. -/
theorem isR_of_mem (h : chunk ∈ ofTokens (lexer.documentTokens t)) : chunk.isR = true := by
  obtain ⟨line, -, hopens, -, hengine, -⟩ := exists_line_of_mem h
  rw [isR, hengine]
  exact decide_eq_true (Fence.engine_of_opensChunk hopens)

/-- A line that opens a chunk is one of these where it stands outside all blocks. -/
theorem exists_mem_of_opens {before more : List Text} {line : Text}
    (hlines : t.lines = before ++ line :: more)
    (hprose : (Region.prose.readLines lexer 0 before).2 = .prose)
    (hopens : Fence.opensChunk line = true) :
    ∃ chunk ∈ ofTokens (lexer.documentTokens t), chunk.header = ⟨before.length, 0⟩ := by
  have htoken : wholeLine .chunkStart before.length line ∈ lexer.documentTokens t := by
    rw [(Layout.of_opens hlines hprose hopens).documentTokens_eq]
    exact List.mem_append_right _ List.mem_cons_self
  exact exists_mem_of_token htoken rfl

end Chunk

end RmdOptions

import RmdOptions.Proofs.Token.Layout

/-!
# The outline of a document

The chunks of a document are found from its fence rows alone, and the fence rows from the kind of
region that each line stands in. Neither the code inside a chunk matters nor a string that it leaves
open. So when the body of a chunk is exchanged for another one that does not close it either, all
chunks stay, and those below move with their lines.

* `Chunk.ofTokens_outline` — the chunks depend on the fence rows only;
* `Region.Alike`, `Region.outline_read`, `Region.outline_readLines` — what one line and what several
  lines add to the outline, wherever they stand;
* `Layout.ofTokens_eq_map` — **the chunks when one body is exchanged**.
-/

namespace RmdOptions

variable {lexer : Lexer} {row row' : Nat} {region region' : Region}

/-! ## Fence rows -/

/-- Whether a token is a row that opens or closes a chunk. -/
def Token.isFence (t : Token) : Bool := t.kind = .chunkStart ∨ t.kind = .chunkEnd

/-- The fence rows among some tokens. -/
def outline (tokens : List Token) : List Token := tokens.filter Token.isFence

@[simp] theorem outline_nil : outline [] = [] := rfl

@[simp] theorem outline_append (ts us : List Token) :
    outline (ts ++ us) = outline ts ++ outline us :=
  List.filter_append ..

theorem outline_cons_of_isFence {t : Token} (h : t.isFence = true) (ts : List Token) :
    outline (t :: ts) = t :: outline ts :=
  List.filter_cons_of_pos h

theorem outline_cons_of_isCode {t : Token} (h : t.IsCode) (ts : List Token) :
    outline (t :: ts) = outline ts := by
  apply List.filter_cons_of_neg
  simp only [Token.isFence, decide_eq_true_eq, not_or]
  exact h

/-- Code has no outline. -/
theorem outline_of_isCode {ts : List Token} (h : ∀ t ∈ ts, t.IsCode) : outline ts = [] := by
  induction ts with
  | nil => rfl
  | cons t ts ih =>
    rw [outline_cons_of_isCode (h t List.mem_cons_self)]
    exact ih fun u hu => h u (List.mem_cons_of_mem _ hu)

/-- A token is a fence row, or comes from code or prose. -/
theorem Token.isFence_or_isCode (t : Token) : t.isFence = true ∨ t.IsCode := by
  cases h : t.isFence with
  | true => exact Or.inl rfl
  | false =>
    simp only [isFence, decide_eq_false_iff_not, not_or] at h
    exact Or.inr h

namespace Chunk

theorem closingRow?_outline (ts : List Token) : closingRow? (outline ts) = closingRow? ts := by
  induction ts with
  | nil => rfl
  | cons t ts ih =>
    rcases t.isFence_or_isCode with hfence | hcode
    · rw [outline_cons_of_isFence hfence, closingRow?, closingRow?, ih]
    · have hsingle : ∀ u ∈ [t], u.IsCode := by
        rintro u hu
        rwa [List.mem_singleton.mp hu]
      rw [outline_cons_of_isCode hcode, ih]
      exact (closingRow?_append hsingle ts).symm

/-- **The chunks depend on the fence rows only.** -/
theorem ofTokens_outline (ts : List Token) : ofTokens (outline ts) = ofTokens ts := by
  induction ts with
  | nil => rfl
  | cons t ts ih =>
    rcases t.isFence_or_isCode with hfence | hcode
    · rw [outline_cons_of_isFence hfence, ofTokens, ofTokens, ih, closingRow?_outline]
    · rw [outline_cons_of_isCode hcode, ih, ofTokens, if_neg hcode.1]

end Chunk

/-! ## Rows that move -/

/-- A place with its row moved. -/
def Position.moveRow (f : Nat → Nat) (p : Position) : Position := ⟨f p.row, p.column⟩

/-- A chunk with its rows moved. Its engine and its label stay, and it is closed if it was. -/
def Chunk.moveRows (f : Nat → Nat) (chunk : Chunk) : Chunk :=
  { chunk with header := chunk.header.moveRow f, endRow := chunk.endRow.map f }

/-- Tokens with their rows moved. -/
def moveTokens (f : Nat → Nat) (tokens : List Token) : List Token :=
  tokens.map (Token.move (Position.moveRow f))

@[simp] theorem moveTokens_nil (f : Nat → Nat) : moveTokens f [] = [] := rfl

@[simp] theorem moveTokens_cons (f : Nat → Nat) (t : Token) (ts : List Token) :
    moveTokens f (t :: ts) = t.move (Position.moveRow f) :: moveTokens f ts := rfl

@[simp] theorem moveTokens_append (f : Nat → Nat) (ts us : List Token) :
    moveTokens f (ts ++ us) = moveTokens f ts ++ moveTokens f us :=
  List.map_append

@[simp] theorem wholeLine_move (f : Nat → Nat) (kind : TokenKind) (row : Nat) (line : Text) :
    (wholeLine kind row line).move (Position.moveRow f) = wholeLine kind (f row) line := rfl

/-- Where the first of some rows goes, and those below it. -/
theorem moves_cons {f : Nat → Nat} {line : Text} {ls : List Text}
    (hf : ∀ i < (line :: ls).length, f (row + i) = row' + i) :
    f row = row' ∧ ∀ i < ls.length, f (row + 1 + i) = row' + 1 + i := by
  refine ⟨hf 0 (Nat.succ_pos _), fun i hi => ?_⟩
  have hmoved := hf (i + 1) (Nat.succ_lt_succ hi)
  rwa [← Nat.add_assoc, ← Nat.add_assoc, Nat.add_right_comm row, Nat.add_right_comm row']
    at hmoved

namespace Chunk

theorem closingRow?_moveTokens (f : Nat → Nat) (ts : List Token) :
    closingRow? (moveTokens f ts) = (closingRow? ts).map f := by
  induction ts with
  | nil => rfl
  | cons t ts ih =>
    rw [moveTokens_cons, closingRow?, closingRow?, Token.move_kind, ih]
    cases t.kind <;> rfl

/-- Chunks move with their tokens. -/
theorem ofTokens_moveTokens (f : Nat → Nat) (ts : List Token) :
    ofTokens (moveTokens f ts) = (ofTokens ts).map (moveRows f) := by
  induction ts with
  | nil => rfl
  | cons t ts ih =>
    have hstart : (t.move (Position.moveRow f)).start = t.start.moveRow f := rfl
    rw [moveTokens_cons, ofTokens, ofTokens, Token.move_kind, Token.move_text, hstart, ih,
      closingRow?_moveTokens]
    split
    · rw [List.map_cons, moveRows]
    · rfl

end Chunk

/-! ## What lines add -/

theorem outline_proseTokens (row : Nat) (line : Text) : outline (proseTokens row line) = [] := by
  apply outline_of_isCode
  intro t ht
  rw [Token.IsCode, (proseTokens_row ht).2]
  exact ⟨by decide, by decide⟩

namespace Region

/-- Two regions of one kind, whatever string is open in them. -/
inductive Alike : Region → Region → Prop
  /-- outside all blocks -/
  | prose : Alike .prose .prose
  /-- in an R chunk -/
  | chunk (pending pending' : Option OpenString) : Alike (.chunk pending) (.chunk pending')
  /-- in another block -/
  | block : Alike .block .block

theorem outline_leave (region : Region) (stop : Position) : outline (region.leave stop) = [] := by
  apply outline_of_isCode
  intro t ht
  cases region with
  | prose => cases ht
  | block => cases ht
  | chunk pending =>
    rw [leave_chunk] at ht
    exact isCode_of_mem_abandoned ht

/-- A line leads from regions of one kind to regions of one kind, and adds the same fence row, where
it stands. -/
theorem outline_read (lexer : Lexer) (h : Alike region region') {f : Nat → Nat} (hf : f row = row')
    (line : Text) :
    Alike (region.read lexer row line).2 (region'.read lexer row' line).2 ∧
      outline (region'.read lexer row' line).1 =
        moveTokens f (outline (region.read lexer row line).1) := by
  have hprose :
      outline (proseTokens row' line) = moveTokens f (outline (proseTokens row line)) := by
    rw [outline_proseTokens, outline_proseTokens, moveTokens_nil]
  subst hf
  cases h with
  | prose =>
    rw [read, read]
    split
    · exact ⟨.chunk _ _, rfl⟩
    · split
      · exact ⟨.block, hprose⟩
      · exact ⟨.prose, hprose⟩
  | block =>
    rw [read, read]
    split
    · exact ⟨.prose, hprose⟩
    · exact ⟨.block, hprose⟩
  | chunk pending pending' =>
    rw [read, read]
    split
    · refine ⟨.prose, ?_⟩
      rw [outline_append, outline_append, outline_leave, outline_leave]
      rfl
    · refine ⟨.chunk _ _, ?_⟩
      dsimp only
      rw [outline_of_isCode (lexLine_isCode pending' line),
        outline_of_isCode (lexLine_isCode pending line), moveTokens_nil]

/-- Several lines add the same fence rows, where they stand. -/
theorem outline_readLines (lexer : Lexer) (h : Alike region region') (ls : List Text)
    {f : Nat → Nat} (hf : ∀ i < ls.length, f (row + i) = row' + i) :
    Alike (region.readLines lexer row ls).2 (region'.readLines lexer row' ls).2 ∧
      outline (region'.readLines lexer row' ls).1 =
        moveTokens f (outline (region.readLines lexer row ls).1) := by
  induction ls generalizing region region' row row' with
  | nil => exact ⟨h, rfl⟩
  | cons line ls ih =>
    obtain ⟨hfirst, hbelow⟩ := moves_cons hf
    obtain ⟨hregion, hread⟩ := outline_read lexer h hfirst line
    obtain ⟨hregion', hrest⟩ := ih hregion hbelow
    rw [readLines_cons, readLines_cons, outline_append, outline_append, moveTokens_append, hread,
      hrest]
    exact ⟨hregion', rfl⟩

end Region

/-! ## Exchanging a body -/

/-- Where a row is when those below one row have moved with the end of a text, which had `old` rows
and has `new` ones. -/
def movedRow (fixed old new row : Nat) : Nat := if row ≤ fixed then row else row + new - old

namespace Layout

variable {before body body' after : List Text} {header : Text} {t t' : Text}

/-- The outline of a document around a chunk: the body adds nothing to it. -/
theorem outline_documentTokens (h : Layout lexer t.lines before header body after) :
    outline (lexer.documentTokens t) =
      outline (Region.prose.readLines lexer 0 before).1 ++
        wholeLine .chunkStart before.length header ::
          outline (afterTokens lexer (before.length + 1 + body.length) after) := by
  have hbody : outline (bodyTokens lexer (before.length + 1) body after) = [] :=
    outline_of_isCode bodyTokens_isCode
  rw [h.documentTokens_eq, outline_append, outline_cons_of_isFence rfl, outline_append, hbody,
    List.nil_append]

theorem outline_afterTokens {f : Nat → Nat} (hf : ∀ i < after.length, f (row + i) = row' + i) :
    outline (afterTokens lexer row' after) =
      moveTokens f (outline (afterTokens lexer row after)) := by
  cases after with
  | nil => rfl
  | cons fence more =>
    obtain ⟨hfence, hbelow⟩ := moves_cons hf
    obtain ⟨-, hmore⟩ := Region.outline_readLines lexer .prose more hbelow
    rw [afterTokens, afterTokens, outline_cons_of_isFence rfl, outline_cons_of_isFence rfl,
      outline_append, outline_append, Region.outline_leave, Region.outline_leave, hmore,
      moveTokens_cons, wholeLine_move, hfence, List.append_nil, List.append_nil]

/-- **Exchanging the body of a chunk keeps the chunks.** Those above stay where they are, and the
rows below the header move with the end of the document. -/
theorem ofTokens_eq_map (h : Layout lexer t.lines before header body after)
    (h' : Layout lexer t'.lines before header body' after) :
    Chunk.ofTokens (lexer.documentTokens t') =
      (Chunk.ofTokens (lexer.documentTokens t)).map
        (Chunk.moveRows (movedRow before.length t.lines.length t'.lines.length)) := by
  generalize hf : movedRow before.length t.lines.length t'.lines.length = f
  have hlength := congrArg List.length h.lines_eq
  have hlength' := congrArg List.length h'.lines_eq
  simp only [List.length_append, List.length_cons] at hlength hlength'
  have habove : ∀ row ≤ before.length, f row = row := by
    intro row hrow
    rw [← hf, movedRow, if_pos hrow]
  have hbelow : ∀ i < after.length,
      f (before.length + 1 + body.length + i) = before.length + 1 + body'.length + i := by
    intro i hi
    rw [← hf, movedRow, if_neg (by omega), hlength, hlength']
    omega
  have hbefore : outline (Region.prose.readLines lexer 0 before).1 =
      moveTokens f (outline (Region.prose.readLines lexer 0 before).1) := by
    refine (Region.outline_readLines lexer .prose before fun i hi => ?_).2
    rw [Nat.zero_add]
    exact habove i (Nat.le_of_lt hi)
  have hheader : wholeLine .chunkStart before.length header =
      (wholeLine .chunkStart before.length header).move (Position.moveRow f) := by
    rw [wholeLine_move, habove _ (Nat.le_refl _)]
  rw [← Chunk.ofTokens_outline, ← Chunk.ofTokens_outline (lexer.documentTokens t),
    ← Chunk.ofTokens_moveTokens, h.outline_documentTokens, h'.outline_documentTokens,
    moveTokens_append, moveTokens_cons, ← hbefore, ← hheader, outline_afterTokens hbelow]

end Layout

end RmdOptions

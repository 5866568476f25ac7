import Mathlib.Data.List.Chain
import RmdOptions.Proofs.Token.Outline
import RmdOptions.Proofs.Token.Tiling

/-!
# Nesting of fence rows

In the tokens of a document the rows that open a chunk and those that close one take turns, and
prose is where no chunk is open. A line is read knowing only the region that it stands in, so this
comes down to what one line does to it. It follows that whoever looks for the end of a chunk from
its header on finds the row that the list of chunks has for it, and that a chunk without an end is
the last one.

* `InChunk`, `WellNested` — well nested tokens;
* `Nested`, `Nested.wellNested` — the same, told token by token;
* `Region.nested_read`, `Lexer.documentTokens_nested` — a line, and a document;
* `Nested.later_eq_nil` — chunks that have no end;
* `Cursor.start_le_iff` — where a cursor is put;
* `Lexer.chunks_nested` — **fence rows are nested, and chunks end where they are found to end**.
-/

namespace RmdOptions

variable {tokens before later : List Token} {token : Token} {inside inside' : Bool}

/-! ## Well nested tokens -/

/-- Whether what follows some tokens stands in a chunk: the last fence row among them opens it. -/
def InChunk (tokens : List Token) : Prop :=
  ∃ fence ∈ (outline tokens).getLast?, fence.kind = .chunkStart

/-- Tokens are well nested when chunks open and close in turn, and prose is exactly what stands
between them. -/
structure WellNested (tokens : List Token) : Prop where
  /-- the first fence row opens a chunk -/
  opens : ∀ fence ∈ (outline tokens).head?, fence.kind = .chunkStart
  /-- of two fence rows that follow one another, one opens a chunk and the other closes one -/
  alternates : (outline tokens).IsChain fun fence next => fence.kind ≠ next.kind
  /-- no prose is in a chunk -/
  inside : ∀ before token later, tokens = before ++ token :: later → InChunk before →
    token.kind ≠ .prose
  /-- outside the chunks are prose and the rows that open them -/
  outside : ∀ before token later, tokens = before ++ token :: later → ¬ InChunk before →
    token.kind = .prose ∨ token.kind = .chunkStart

/-- Tokens lead from outside the chunks or from inside one (which is `true`) to outside or inside.
Each kind of token has its place. -/
inductive Nested : Bool → List Token → Bool → Prop
  /-- nothing is left -/
  | nil {inside : Bool} : Nested inside [] inside
  /-- prose outside the chunks -/
  | prose {token : Token} {later : List Token} {inside : Bool} (hkind : token.kind = .prose)
      (hlater : Nested false later inside) : Nested false (token :: later) inside
  /-- a row that opens a chunk -/
  | opening {token : Token} {later : List Token} {inside : Bool} (hkind : token.kind = .chunkStart)
      (hlater : Nested true later inside) : Nested false (token :: later) inside
  /-- code in a chunk -/
  | code {token : Token} {later : List Token} {inside : Bool} (hlexeme : token.IsLexeme)
      (hlater : Nested true later inside) : Nested true (token :: later) inside
  /-- the row that closes a chunk -/
  | closing {token : Token} {later : List Token} {inside : Bool} (hkind : token.kind = .chunkEnd)
      (hlater : Nested false later inside) : Nested true (token :: later) inside

theorem Token.isFence_of_chunkStart (h : token.kind = .chunkStart) : token.isFence = true := by
  simp [isFence, h]

theorem Token.isFence_of_chunkEnd (h : token.kind = .chunkEnd) : token.isFence = true := by
  simp [isFence, h]

theorem Token.isCode_of_prose (h : token.kind = .prose) : token.IsCode := by
  simp [IsCode, h]

namespace Nested

theorem append {middle : Bool} (h : Nested inside before middle)
    (hlater : Nested middle later inside') : Nested inside (before ++ later) inside' := by
  induction h with
  | nil => exact hlater
  | prose hkind _ ih => exact .prose hkind (ih hlater)
  | opening hkind _ ih => exact .opening hkind (ih hlater)
  | code hlexeme _ ih => exact .code hlexeme (ih hlater)
  | closing hkind _ ih => exact .closing hkind (ih hlater)

theorem of_append (h : Nested inside (before ++ later) inside') :
    ∃ middle, Nested inside before middle ∧ Nested middle later inside' := by
  induction before generalizing inside with
  | nil => exact ⟨inside, .nil, h⟩
  | cons token before ih =>
    cases h with
    | prose hkind hlater =>
      obtain ⟨middle, hbefore, hrest⟩ := ih hlater
      exact ⟨middle, .prose hkind hbefore, hrest⟩
    | opening hkind hlater =>
      obtain ⟨middle, hbefore, hrest⟩ := ih hlater
      exact ⟨middle, .opening hkind hbefore, hrest⟩
    | code hlexeme hlater =>
      obtain ⟨middle, hbefore, hrest⟩ := ih hlater
      exact ⟨middle, .code hlexeme hbefore, hrest⟩
    | closing hkind hlater =>
      obtain ⟨middle, hbefore, hrest⟩ := ih hlater
      exact ⟨middle, .closing hkind hbefore, hrest⟩

/-- Some code leads from inside a chunk to inside it. -/
theorem of_isLexeme (h : ∀ token ∈ tokens, token.IsLexeme) : Nested true tokens true := by
  induction tokens with
  | nil => exact .nil
  | cons token later ih =>
    exact .code (h token List.mem_cons_self) (ih fun u hu => h u (List.mem_cons_of_mem _ hu))

/-! ### What nesting says about the tokens -/

/-- Fence rows take turns, and the first one fits the place where they begin. -/
theorem outline_turns (h : Nested inside tokens inside') :
    (∀ fence ∈ (outline tokens).head?,
        fence.kind = if inside = true then .chunkEnd else .chunkStart) ∧
      (outline tokens).IsChain fun fence next => fence.kind ≠ next.kind := by
  induction h with
  | nil => exact ⟨nofun, .nil⟩
  | prose hkind _ ih =>
    rw [outline_cons_of_isCode (Token.isCode_of_prose hkind)]
    exact ih
  | code hlexeme _ ih =>
    rw [outline_cons_of_isCode hlexeme.1]
    exact ih
  | opening hkind _ ih =>
    rw [outline_cons_of_isFence (Token.isFence_of_chunkStart hkind), List.isChain_cons]
    refine ⟨?_, ?_, ih.2⟩
    · rintro fence ⟨⟩
      exact hkind
    · intro next hnext
      rw [hkind, ih.1 next hnext]
      decide
  | closing hkind _ ih =>
    rw [outline_cons_of_isFence (Token.isFence_of_chunkEnd hkind), List.isChain_cons]
    refine ⟨?_, ?_, ih.2⟩
    · rintro fence ⟨⟩
      exact hkind
    · intro next hnext
      rw [hkind, ih.1 next hnext]
      decide

/-- The last fence row tells where tokens that begin outside the chunks lead. -/
theorem inChunk_iff (h : Nested false tokens inside) : InChunk tokens ↔ inside = true := by
  induction tokens using List.reverseRecOn generalizing inside with
  | nil =>
    cases h
    simp [InChunk]
  | append_singleton before token ih =>
    obtain ⟨middle, hbefore, hlast⟩ := h.of_append
    have hmiddle := ih hbefore
    cases hlast with
    | prose hkind hlater =>
      cases hlater
      rw [InChunk, outline_append, outline_cons_of_isCode (Token.isCode_of_prose hkind),
        outline_nil, List.append_nil]
      exact hmiddle
    | code hlexeme hlater =>
      cases hlater
      rw [InChunk, outline_append, outline_cons_of_isCode hlexeme.1, outline_nil, List.append_nil]
      exact hmiddle
    | opening hkind hlater =>
      cases hlater
      rw [InChunk, outline_append, outline_cons_of_isFence (Token.isFence_of_chunkStart hkind)]
      simp [hkind]
    | closing hkind hlater =>
      cases hlater
      rw [InChunk, outline_append, outline_cons_of_isFence (Token.isFence_of_chunkEnd hkind)]
      simp [hkind]

/-- **Nested tokens that begin outside the chunks are well nested.** -/
theorem wellNested (h : Nested false tokens inside) : WellNested tokens where
  opens := h.outline_turns.1
  alternates := h.outline_turns.2
  inside := by
    rintro before token later rfl hin
    obtain ⟨middle, hbefore, hlater⟩ := h.of_append
    obtain rfl := hbefore.inChunk_iff.mp hin
    cases hlater with
    | code hlexeme _ => exact hlexeme.2
    | closing hkind _ => simp [hkind]
  outside := by
    rintro before token later rfl hout
    obtain ⟨middle, hbefore, hlater⟩ := h.of_append
    rw [hbefore.inChunk_iff] at hout
    cases hlater with
    | prose hkind _ => exact Or.inl hkind
    | opening hkind _ => exact Or.inr hkind
    | code _ _ => exact absurd rfl hout
    | closing _ _ => exact absurd rfl hout

/-- A chunk that is not closed is the last one. -/
theorem ofTokens_eq_nil (h : Nested inside tokens inside') (hin : inside = true)
    (hopen : Chunk.closingRow? tokens = none) : Chunk.ofTokens tokens = [] := by
  induction h with
  | nil => rfl
  | prose _ _ _ => cases hin
  | opening _ _ _ => cases hin
  | code hlexeme _ ih =>
    rw [← Chunk.closingRow?_outline, outline_cons_of_isCode hlexeme.1,
      Chunk.closingRow?_outline] at hopen
    rw [Chunk.ofTokens, if_neg hlexeme.1.1]
    exact ih rfl hopen
  | closing hkind _ _ =>
    rw [Chunk.closingRow?, hkind] at hopen
    cases hopen

theorem later_eq_nil (h : Nested inside tokens inside') {earlier more : List Chunk} {chunk : Chunk}
    (hchunks : Chunk.ofTokens tokens = earlier ++ chunk :: more) (hopen : chunk.endRow = none) :
    more = [] := by
  induction h generalizing earlier with
  | nil => simp [Chunk.ofTokens] at hchunks
  | prose hkind _ ih =>
    rw [Chunk.ofTokens, if_neg (by simp [hkind])] at hchunks
    exact ih hchunks
  | code hlexeme _ ih =>
    rw [Chunk.ofTokens, if_neg hlexeme.1.1] at hchunks
    exact ih hchunks
  | closing hkind _ ih =>
    rw [Chunk.ofTokens, if_neg (by simp [hkind])] at hchunks
    exact ih hchunks
  | opening hkind hlater ih =>
    rw [Chunk.ofTokens, if_pos hkind] at hchunks
    cases earlier with
    | nil =>
      obtain ⟨rfl, hmore⟩ := List.cons.inj hchunks
      rw [← hmore]
      exact hlater.ofTokens_eq_nil rfl hopen
    | cons first earlier => exact ih (List.cons.inj hchunks).2

end Nested

/-! ## Documents -/

theorem nested_proseTokens (row : Nat) (line : Text) :
    Nested false (proseTokens row line) false := by
  rw [proseTokens]
  split
  · exact .nil
  · exact .prose rfl .nil

theorem nested_abandoned (left : Option OpenString) (stop : Position) :
    Nested true (abandoned left stop) true := by
  refine Nested.of_isLexeme fun token htoken => ⟨isCode_of_mem_abandoned htoken, ?_⟩
  obtain ⟨_, -, -, hkind⟩ := mem_abandoned htoken
  simp [hkind]

namespace Region

/-- Whether a region is a chunk. -/
def isChunk : Region → Bool
  | .chunk _ => true
  | _ => false

/-- **A line leads from its region to the next one.** -/
theorem nested_read (lexer : Lexer) (row : Nat) (line : Text) (region : Region) :
    Nested region.isChunk (region.read lexer row line).1
      (region.read lexer row line).2.isChunk := by
  have hprose := nested_proseTokens row line
  cases region with
  | prose =>
    rw [read]
    split
    · exact .opening rfl .nil
    · split
      · exact hprose
      · exact hprose
  | block =>
    rw [read]
    dsimp only
    split
    · exact hprose
    · exact hprose
  | chunk pending =>
    rw [read]
    split
    · rw [leave_chunk]
      exact (nested_abandoned pending _).append (.closing rfl .nil)
    · exact Nested.of_isLexeme (lexLine_isLexeme pending line)

theorem nested_readLines (lexer : Lexer) (row : Nat) (ls : List Text) (region : Region) :
    Nested region.isChunk (region.readLines lexer row ls).1
      (region.readLines lexer row ls).2.isChunk := by
  induction ls generalizing row region with
  | nil => exact .nil
  | cons line ls ih =>
    rw [readLines_cons]
    exact (nested_read lexer row line region).append (ih _ _)

theorem nested_leave (region : Region) (stop : Position) :
    Nested region.isChunk (region.leave stop) region.isChunk := by
  cases region with
  | prose => exact .nil
  | block => exact .nil
  | chunk pending =>
    rw [leave_chunk]
    exact nested_abandoned pending stop

end Region

theorem Lexer.documentTokens_nested (lexer : Lexer) (t : Text) :
    ∃ inside, Nested false (lexer.documentTokens t) inside := by
  rw [documentTokens, documentLines_eq _ (Text.lines_ne_nil t)]
  exact ⟨_, (Region.prose.nested_readLines lexer 0 t.lines).append (Region.nested_leave _ _)⟩

/-! ## Cursors -/

theorem Cursor.place_on_cons (token : Token) (later : List Token) (p : Position) :
    (Cursor.on (token :: later) p).place =
      if token.start ≤ p then (Cursor.on later p).place + 1 else 0 := by
  simp only [on, List.takeWhile_cons, decide_eq_true_eq]
  split <;> rfl

/-- A cursor on a position is put behind all tokens that start by it, and no others: where tokens
are in order, it does not matter how these are searched for. -/
theorem Cursor.start_le_iff (h : tokens.Pairwise fun token later => token.start ≤ later.start)
    (p : Position) {i : Nat} (htoken : tokens[i]? = some token) :
    token.start ≤ p ↔ i < (Cursor.on tokens p).place := by
  induction tokens generalizing i with
  | nil => cases htoken
  | cons first later ih =>
    obtain ⟨hfirst, hlater⟩ := List.pairwise_cons.mp h
    rw [place_on_cons]
    cases i with
    | zero =>
      cases htoken
      split
      · next hle => exact ⟨fun _ => Nat.succ_pos _, fun _ => hle⟩
      · next hbehind =>
        exact ⟨fun hle => absurd hle hbehind, fun hlt => absurd hlt (Nat.lt_irrefl 0)⟩
    | succ i =>
      rw [List.getElem?_cons_succ] at htoken
      split
      · rw [ih hlater htoken, Nat.add_lt_add_iff_right]
      · next hbehind =>
        -- the token does not start before one that starts behind the position
        have hle := hfirst token (List.mem_of_getElem? htoken)
        exact ⟨fun htoken => absurd (Position.le_trans hle htoken) hbehind,
          fun hlt => absurd hlt (Nat.not_lt_zero _)⟩

namespace Lexer

/-- **Fence rows are nested.** Whatever fence closes a chunk, in the tokens of a text chunks open
and close in turn and prose is exactly what stands between them. Tokens start one behind the other,
so a cursor on a position stands behind just those that start by it. From the header of a chunk on,
the first boundary is the row where the chunk ends, and only the last chunk can have no end. -/
theorem chunks_nested (lexer : Lexer) (t : Text) :
    let tokens := lexer.documentTokens t
    WellNested tokens ∧
      (∀ (p : Position) (i : Nat) (token : Token), tokens[i]? = some token →
        (token.start ≤ p ↔ i < (Cursor.on tokens p).place)) ∧
      (∀ chunk ∈ Chunk.ofTokens tokens, endRow? tokens chunk.header = chunk.endRow) ∧
      ∀ earlier chunk later, Chunk.ofTokens tokens = earlier ++ chunk :: later →
        chunk.endRow = none → later = [] := by
  intro tokens
  obtain ⟨inside, hnested⟩ := lexer.documentTokens_nested t
  refine ⟨hnested.wellNested, ?_, ?_, ?_⟩
  · intro p i token htoken
    refine Cursor.start_le_iff ((lexer.documentTokens_tiles t).start_lt_start.imp ?_) p htoken
    exact Position.le_of_lt
  · intro chunk hchunk
    obtain ⟨before, header, body, after, hlayout, hheader, hend⟩ := exists_layout hchunk
    rw [hheader, hend]
    exact hlayout.endRow?_eq
  · intro earlier chunk later hchunks hopen
    exact hnested.later_eq_nil hchunks hopen

end Lexer

end RmdOptions

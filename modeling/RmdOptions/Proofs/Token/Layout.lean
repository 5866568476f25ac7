import RmdOptions.Chunk
import RmdOptions.Document
import RmdOptions.Proofs.Text.Lines
import RmdOptions.Proofs.Token.Code

/-!
# The layout of a document around a chunk

Every chunk of a document has its header on a row outside all other blocks, a body that reaches down
to the first row that closes it, and that row, unless the document ends before. The tokens between
the two fence rows are those of the body read as code.

* `Lexer.codeTokens_eq` — a text that is all code, read line by line;
* `Region.readLines` — several lines of a document;
* `Layout`, `exists_layout` — the lines around a chunk, and that every chunk has them;
* `Layout.documentTokens_eq`, `Layout.on_header`, `Layout.endRow?_eq` — the tokens around it.
-/

namespace RmdOptions

variable {lexer : Lexer} {row : Nat}

/-! ## A text that is all code -/

/-- The end of the last of some lines, the first of which is row `row`. -/
def lastPlace (row : Nat) : List Text → Position
  | [] => ⟨row, 0⟩
  | [last] => ⟨row, last.length⟩
  | _ :: next :: more => lastPlace (row + 1) (next :: more)

/-- The token of a string that nothing closes misses the line feed that was read last. -/
theorem OpenString.abandon_eq {s : OpenString} {written : Text} (h : s.text = written ++ ['\n'])
    (stop : Position) : s.abandon stop = ⟨.string, written, s.start, stop⟩ := by
  rw [abandon, h, List.getLast?_concat, if_pos rfl, List.dropLast_concat]

/-- The token of a string that is still open at a place. -/
def abandoned (left : Option OpenString) (stop : Position) : List Token :=
  (left.map (·.abandon stop)).toList

theorem Lexer.codeLines_eq (pending : Option OpenString) {ls : List Text} (h : ls ≠ []) :
    lexer.codeLines pending row ls =
      (lexLines lexer.rules pending row ls).1 ++
        abandoned (lexLines lexer.rules pending row ls).2 (lastPlace row ls) := by
  induction ls generalizing pending row with
  | nil => exact absurd rfl h
  | cons line more ih =>
    cases more with
    | nil => simp [Lexer.codeLines, lexLines_cons, lastPlace, abandoned]
    | cons next more =>
      have hstep : lexer.codeLines pending row (line :: next :: more) =
          (lexLine lexer.rules pending row line).1 ++
            lexer.codeLines (lexLine lexer.rules pending row line).2 (row + 1) (next :: more) := rfl
      rw [hstep, ih _ (List.cons_ne_nil _ _), lexLines_cons pending, lastPlace]
      simp

theorem Lexer.codeTokens_nil (lexer : Lexer) : lexer.codeTokens [] = [] := by
  simp [codeTokens, Text.lines, Text.cutAt, codeLines, lexLine]

/-- The tokens of a text that is all code are those of its lines, and a string that is left open. -/
theorem Lexer.codeTokens_eq (lexer : Lexer) (t : Text) :
    lexer.codeTokens t =
      (lexLines lexer.rules none 0 t.lines).1 ++
        abandoned (lexLines lexer.rules none 0 t.lines).2 (lastPlace 0 t.lines) :=
  Lexer.codeLines_eq none (Text.lines_ne_nil t)

/-! ## Lines of a document -/

namespace Region

/-- Reads lines of a document from row `row` on, and tells where the line after them stands. -/
def readLines (lexer : Lexer) (region : Region) (row : Nat) : List Text → List Token × Region
  | [] => ([], region)
  | line :: more =>
    let first := region.read lexer row line
    let rest := readLines lexer first.2 (row + 1) more
    (first.1 ++ rest.1, rest.2)

@[simp] theorem readLines_nil (region : Region) :
    region.readLines lexer row [] = ([], region) := rfl

theorem readLines_cons (region : Region) (line : Text) (more : List Text) :
    region.readLines lexer row (line :: more) =
      ((region.read lexer row line).1 ++
          ((region.read lexer row line).2.readLines lexer (row + 1) more).1,
        ((region.read lexer row line).2.readLines lexer (row + 1) more).2) := rfl

theorem readLines_append (region : Region) (ls ms : List Text) :
    region.readLines lexer row (ls ++ ms) =
      ((region.readLines lexer row ls).1 ++
          ((region.readLines lexer row ls).2.readLines lexer (row + ls.length) ms).1,
        ((region.readLines lexer row ls).2.readLines lexer (row + ls.length) ms).2) := by
  induction ls generalizing region row with
  | nil => simp
  | cons line ls ih =>
    have hrow : row + 1 + ls.length = row + (line :: ls).length := by
      rw [List.length_cons]
      omega
    rw [List.cons_append, readLines_cons, ih, readLines_cons, hrow]
    simp

/-- The lines of a chunk that do not close it are read as code. -/
theorem readLines_chunk (row : Nat) (pending : Option OpenString) {ls : List Text}
    (h : ∀ line ∈ ls, Fence.closes lexer.closingFence line = false) :
    (Region.chunk pending).readLines lexer row ls =
      ((lexLines lexer.rules pending row ls).1,
        .chunk (lexLines lexer.rules pending row ls).2) := by
  induction ls generalizing pending row with
  | nil => rfl
  | cons line ls ih =>
    have hopen : Fence.closes lexer.closingFence line = false := h line List.mem_cons_self
    rw [readLines_cons, read, if_neg (by simp [hopen]),
      ih _ _ fun l hl => h l (List.mem_cons_of_mem _ hl), lexLines_cons]
    rfl

theorem leave_chunk (pending : Option OpenString) (stop : Position) :
    (Region.chunk pending).leave stop = abandoned pending stop := by
  cases pending <;> rfl

end Region

theorem Lexer.documentLines_eq (region : Region) {ls : List Text} (h : ls ≠ []) :
    lexer.documentLines region row ls =
      (region.readLines lexer row ls).1 ++
        (region.readLines lexer row ls).2.leave (lastPlace row ls) := by
  induction ls generalizing region row with
  | nil => exact absurd rfl h
  | cons line more ih =>
    cases more with
    | nil => simp [Lexer.documentLines, Region.readLines_cons, lastPlace]
    | cons next more =>
      have hstep : lexer.documentLines region row (line :: next :: more) =
          (region.read lexer row line).1 ++
            lexer.documentLines (region.read lexer row line).2 (row + 1) (next :: more) := rfl
      rw [hstep, ih _ (List.cons_ne_nil _ _), Region.readLines_cons region, lastPlace]
      simp

/-! ## Rows of tokens -/

/-- A string that is open in the region has been opened in the rows from `base` to before `row`. -/
def Region.OpenedIn (base row : Nat) : Region → Prop
  | .chunk (some s) => base ≤ s.start.row ∧ s.start.row < row
  | _ => True

theorem mem_abandoned {left : Option OpenString} {stop : Position} {token : Token}
    (h : token ∈ abandoned left stop) :
    ∃ s, left = some s ∧ token.start = s.start ∧ token.kind = .string := by
  rw [abandoned, Option.mem_toList, Option.map_eq_some_iff] at h
  obtain ⟨s, rfl, rfl⟩ := h
  exact ⟨s, rfl, rfl, rfl⟩

theorem proseTokens_row {line : Text} {token : Token} (h : token ∈ proseTokens row line) :
    token.start.row = row ∧ token.kind = .prose := by
  rw [proseTokens] at h
  split at h
  · cases h
  · rw [List.mem_singleton] at h
    rw [h]
    exact ⟨rfl, rfl⟩

/-- The tokens of a line start on its row, or where a string was opened before. -/
theorem Region.read_row (lexer : Lexer) (region : Region) {base : Nat} (line : Text)
    (hbase : base ≤ row)
    (h : region.OpenedIn base row) :
    (∀ token ∈ (region.read lexer row line).1,
        base ≤ token.start.row ∧ token.start.row < row + 1) ∧
      (region.read lexer row line).2.OpenedIn base (row + 1) := by
  have hprose : ∀ token ∈ proseTokens row line,
      base ≤ token.start.row ∧ token.start.row < row + 1 := by
    intro token htoken
    have := (proseTokens_row htoken).1
    omega
  cases region with
  | prose =>
    rw [read]
    split
    · refine ⟨fun token htoken => ?_, trivial⟩
      rw [List.mem_singleton] at htoken
      rw [htoken]
      exact ⟨hbase, Nat.lt_succ_self _⟩
    · split
      · exact ⟨hprose, trivial⟩
      · exact ⟨hprose, trivial⟩
  | block =>
    rw [read]
    refine ⟨hprose, ?_⟩
    split <;> trivial
  | chunk pending =>
    have hpending : ∀ s ∈ pending, base ≤ s.start.row ∧ s.start.row < row := by
      rintro s rfl
      exact h
    rw [read]
    split
    · refine ⟨fun token htoken => ?_, trivial⟩
      rcases List.mem_append.mp htoken with htoken | htoken
      · rw [leave_chunk] at htoken
        obtain ⟨s, hs, hstart, -⟩ := mem_abandoned htoken
        obtain ⟨hfrom, hto⟩ := hpending s hs
        rw [hstart]
        exact ⟨hfrom, Nat.lt_succ_of_lt hto⟩
      · rw [List.mem_singleton] at htoken
        rw [htoken]
        exact ⟨hbase, Nat.lt_succ_self _⟩
    · obtain ⟨htokens, hleft⟩ := lexLine_row lexer.rules line hbase hpending
      refine ⟨htokens, ?_⟩
      dsimp only
      cases hopen : (lexLine lexer.rules pending row line).2 with
      | none => trivial
      | some s => exact hleft s hopen

/-- The tokens of several lines start on these lines, or where a string was opened before. -/
theorem Region.readLines_row (lexer : Lexer) (region : Region) {base : Nat} (ls : List Text)
    (hbase : base ≤ row)
    (h : region.OpenedIn base row) :
    (∀ token ∈ (region.readLines lexer row ls).1,
        base ≤ token.start.row ∧ token.start.row < row + ls.length) ∧
      (region.readLines lexer row ls).2.OpenedIn base (row + ls.length) := by
  induction ls generalizing region row with
  | nil => exact ⟨fun _ htoken => absurd htoken List.not_mem_nil, h⟩
  | cons line ls ih =>
    obtain ⟨htokens, hleft⟩ := Region.read_row lexer region line hbase h
    obtain ⟨hmore, hopen⟩ := ih _ (Nat.le_succ_of_le hbase) hleft
    have hrow : row + 1 + ls.length = row + (line :: ls).length := by
      rw [List.length_cons]
      omega
    rw [hrow] at hmore hopen
    rw [Region.readLines_cons]
    refine ⟨fun token htoken => ?_, hopen⟩
    rcases List.mem_append.mp htoken with htoken | htoken
    · have := htokens token htoken
      omega
    · exact hmore token htoken

theorem Region.leave_row {base : Nat} {region : Region} (stop : Position)
    (h : region.OpenedIn base row) :
    ∀ token ∈ region.leave stop, base ≤ token.start.row ∧ token.start.row < row := by
  intro token htoken
  cases region with
  | prose => cases htoken
  | block => cases htoken
  | chunk pending =>
    rw [leave_chunk] at htoken
    obtain ⟨s, rfl, hstart, -⟩ := mem_abandoned htoken
    rw [hstart]
    exact h

/-! ## Chunks -/

/-- Tokens that open no chunk hide none of the chunks behind them. -/
theorem Chunk.ofTokens_append {ts : List Token} (h : ∀ t ∈ ts, t.kind ≠ .chunkStart)
    (rest : List Token) : Chunk.ofTokens (ts ++ rest) = Chunk.ofTokens rest := by
  induction ts with
  | nil => rfl
  | cons t ts ih =>
    rw [List.cons_append, Chunk.ofTokens, if_neg (h t List.mem_cons_self),
      ih fun u hu => h u (List.mem_cons_of_mem _ hu)]

theorem Chunk.closingRow?_append {ts : List Token} (h : ∀ t ∈ ts, t.IsCode) (rest : List Token) :
    Chunk.closingRow? (ts ++ rest) = Chunk.closingRow? rest := by
  induction ts with
  | nil => rfl
  | cons t ts ih =>
    obtain ⟨hstart, hend⟩ := h t List.mem_cons_self
    rw [List.cons_append, Chunk.closingRow?, ih fun u hu => h u (List.mem_cons_of_mem _ hu)]
    split
    · next hkind => exact absurd hkind hstart
    · next hkind => exact absurd hkind hend
    · rfl

theorem isCode_of_mem_abandoned {left : Option OpenString} {stop : Position} {token : Token}
    (h : token ∈ abandoned left stop) : token.IsCode := by
  obtain ⟨s, -, -, hkind⟩ := mem_abandoned h
  rw [Token.IsCode, hkind]
  exact ⟨by decide, by decide⟩

/-- No token of a text that is all code ends a chunk. -/
theorem Lexer.codeTokens_isBoundary (lexer : Lexer) (t : Text) :
    ∀ token ∈ lexer.codeTokens t, token.isBoundary = false := by
  intro token htoken
  rw [lexer.codeTokens_eq, List.mem_append] at htoken
  rcases htoken with htoken | htoken
  · exact (lexLines_isCode _ _ token htoken).isBoundary
  · exact (isCode_of_mem_abandoned htoken).isBoundary

/-- What is read inside a chunk opens no chunk. -/
theorem Region.read_ne_chunkStart {region : Region} {line : Text}
    (h : region ≠ .prose ∨ Fence.opensChunk line = false) :
    ∀ token ∈ (region.read lexer row line).1, token.kind ≠ .chunkStart := by
  have hprose : ∀ token ∈ proseTokens row line, token.kind ≠ .chunkStart := by
    intro token htoken
    rw [(proseTokens_row htoken).2]
    decide
  intro token htoken
  cases region with
  | prose =>
    have hopens : Fence.opensChunk line = false := h.resolve_left fun hne => hne rfl
    rw [read, if_neg (by simp [hopens])] at htoken
    split at htoken
    · exact hprose token htoken
    · exact hprose token htoken
  | block => exact hprose token htoken
  | chunk pending =>
    rw [read] at htoken
    split at htoken
    · rcases List.mem_append.mp htoken with htoken | htoken
      · rw [leave_chunk] at htoken
        exact (isCode_of_mem_abandoned htoken).1
      · rw [List.mem_singleton] at htoken
        simp [htoken, wholeLine]
    · exact (lexLine_isCode pending line token htoken).1

/-- Nor does what is left open at its end. -/
theorem Region.leave_ne_chunkStart (region : Region) (stop : Position) :
    ∀ token ∈ region.leave stop, token.kind ≠ .chunkStart := by
  intro token htoken
  cases region with
  | prose => cases htoken
  | block => cases htoken
  | chunk pending =>
    rw [leave_chunk] at htoken
    exact (isCode_of_mem_abandoned htoken).1

/-- Where the chunks of a document open: each has its header on a line outside all blocks, and ends
at the first boundary behind. -/
theorem exists_header_of_mem {region : Region} {ls : List Text} {rest : List Token} {chunk : Chunk}
    (hrest : ∀ t ∈ rest, t.kind ≠ .chunkStart)
    (h : chunk ∈ Chunk.ofTokens ((region.readLines lexer row ls).1 ++ rest)) :
    ∃ before header more, ls = before ++ header :: more ∧
      (region.readLines lexer row before).2 = .prose ∧
      Fence.opensChunk header = true ∧
      chunk.header = ⟨row + before.length, 0⟩ ∧
      chunk.endRow = Chunk.closingRow?
        (((Region.chunk none).readLines lexer (row + before.length + 1) more).1 ++ rest) := by
  induction ls generalizing region row with
  | nil =>
    have hnone := Chunk.ofTokens_append hrest []
    rw [List.append_nil] at hnone
    rw [Region.readLines_nil, List.nil_append, hnone] at h
    cases h
  | cons line ls ih =>
    rw [Region.readLines_cons, List.append_assoc] at h
    have hlater (hmem : chunk ∈ Chunk.ofTokens
        (((region.read lexer row line).2.readLines lexer (row + 1) ls).1 ++ rest)) :
        ∃ before header more, line :: ls = before ++ header :: more ∧
          (region.readLines lexer row before).2 = .prose ∧
          Fence.opensChunk header = true ∧
          chunk.header = ⟨row + before.length, 0⟩ ∧
          chunk.endRow = Chunk.closingRow?
            (((Region.chunk none).readLines lexer (row + before.length + 1) more).1 ++ rest) := by
      obtain ⟨before, header, more, rfl, hprose, hopens, hheader, hend⟩ := ih hmem
      have hrow : row + (line :: before).length = row + 1 + before.length := by
        rw [List.length_cons]
        omega
      refine ⟨line :: before, header, more, rfl, ?_, hopens, ?_, ?_⟩
      · rw [Region.readLines_cons, hprose]
      · rw [hrow, hheader]
      · rw [hrow, hend]
    by_cases hopens : region = .prose ∧ Fence.opensChunk line = true
    · obtain ⟨rfl, hopens⟩ := hopens
      have hread : Region.read lexer row line .prose =
          ([wholeLine .chunkStart row line], .chunk none) := by
        rw [Region.read, if_pos hopens]
      rw [hread] at h hlater
      rw [List.singleton_append, Chunk.ofTokens,
        if_pos (show (wholeLine .chunkStart row line).kind = .chunkStart from rfl)] at h
      rcases List.mem_cons.mp h with rfl | h
      · exact ⟨[], line, ls, rfl, rfl, hopens, rfl, rfl⟩
      · exact hlater h
    · have hne : region ≠ .prose ∨ Fence.opensChunk line = false := by
        by_cases hregion : region = .prose
        · exact Or.inr (by simpa [hregion] using hopens)
        · exact Or.inl hregion
      rw [Chunk.ofTokens_append (Region.read_ne_chunkStart hne)] at h
      exact hlater h

/-- The lines of a document around one of its chunks. -/
structure Layout (lexer : Lexer) (ls : List Text)
    (before : List Text) (header : Text) (body after : List Text) : Prop where
  /-- the header, the body and what follows make up the lines, with those before -/
  lines_eq : ls = before ++ header :: (body ++ after)
  /-- the header stands outside all blocks -/
  prose : (Region.prose.readLines lexer 0 before).2 = .prose
  /-- the header opens a chunk -/
  opens : Fence.opensChunk header = true
  /-- no line of the body closes it -/
  body_open : ∀ line ∈ body, Fence.closes lexer.closingFence line = false
  /-- the line behind the body closes it -/
  after_closes : ∀ line ∈ after.head?, Fence.closes lexer.closingFence line = true

/-- The row of the line behind the body of a chunk, if there is one. -/
def Layout.endRow? (before body after : List Text) : Option Nat :=
  after.head?.map fun _ => before.length + 1 + body.length

/-- Lines behind a header are a body that no line closes, and what follows from the first line on
that closes it. -/
theorem Layout.of_opens {ls before more : List Text} {header : Text}
    (hlines : ls = before ++ header :: more)
    (hprose : (Region.prose.readLines lexer 0 before).2 = .prose)
    (hopens : Fence.opensChunk header = true) :
    Layout lexer ls before header
      (more.takeWhile fun line => !Fence.closes lexer.closingFence line)
      (more.dropWhile fun line => !Fence.closes lexer.closingFence line) where
  lines_eq := by rw [hlines, List.takeWhile_append_dropWhile]
  prose := hprose
  opens := hopens
  body_open line hline := by
    simpa using List.all_eq_true.mp List.all_takeWhile line hline
  after_closes line hline := by
    have hfirst := List.head?_dropWhile_not
      (fun line => !Fence.closes lexer.closingFence line) more
    rw [Option.mem_def.mp hline] at hfirst
    simpa using hfirst

namespace Layout

/-- Where a string that the body leaves open ends: on the boundary, or at the end of all. -/
def bodyStop (row : Nat) (body after : List Text) : Position :=
  match after with
  | [] => lastPlace row body
  | _ :: _ => ⟨row + body.length, 0⟩

/-- The tokens of the body of a chunk, the first line of which is row `row`. -/
def bodyTokens (lexer : Lexer) (row : Nat) (body after : List Text) : List Token :=
  (lexLines lexer.rules none row body).1 ++
    abandoned (lexLines lexer.rules none row body).2 (bodyStop row body after)

/-- The tokens behind the body of a chunk: the boundary on row `row` and what follows. -/
def afterTokens (lexer : Lexer) (row : Nat) : List Text → List Token
  | [] => []
  | fence :: more =>
    wholeLine .chunkEnd row fence ::
      ((Region.prose.readLines lexer (row + 1) more).1 ++
        (Region.prose.readLines lexer (row + 1) more).2.leave (lastPlace row (fence :: more)))

variable {before body after : List Text} {header : Text} {t : Text}

theorem lastPlace_append (ls : List Text) {ms : List Text} (h : ms ≠ []) :
    lastPlace row (ls ++ ms) = lastPlace (row + ls.length) ms := by
  induction ls generalizing row with
  | nil => rfl
  | cons line ls ih =>
    obtain ⟨next, more, heq⟩ := List.exists_cons_of_ne_nil (l := ls ++ ms) (by simp [h])
    rw [List.cons_append, heq, lastPlace, ← heq, ih, List.length_cons]
    congr 1
    omega

/-- What is read from the line behind the header on. -/
theorem readLines_body (h : Layout lexer t.lines before header body after) :
    ((Region.chunk none).readLines lexer (before.length + 1) (body ++ after)).1 ++
        ((Region.chunk none).readLines lexer (before.length + 1) (body ++ after)).2.leave
          (lastPlace 0 t.lines) =
      bodyTokens lexer (before.length + 1) body after ++
        afterTokens lexer (before.length + 1 + body.length) after := by
  have hbody := Region.readLines_chunk (before.length + 1) none h.body_open
  rw [Region.readLines_append, hbody]
  cases after with
  | nil =>
    simp only [Region.readLines_nil, Region.leave_chunk, List.append_nil, afterTokens, bodyTokens,
      bodyStop]
    by_cases hnil : body = []
    · subst hnil
      rfl
    · have hlines := h.lines_eq
      rw [List.append_nil, List.append_cons] at hlines
      rw [hlines, lastPlace_append _ hnil]
      simp
  | cons fence more =>
    have hcloses : Fence.closes lexer.closingFence fence = true := h.after_closes fence rfl
    have hlines : t.lines = (before ++ header :: body) ++ (fence :: more) := by
      simp [h.lines_eq]
    have hlast : lastPlace 0 t.lines =
        lastPlace (before.length + 1 + body.length) (fence :: more) := by
      rw [hlines, lastPlace_append _ (List.cons_ne_nil _ _), List.length_append, List.length_cons]
      congr 1
      omega
    rw [Region.readLines_cons, Region.read, if_pos hcloses, hlast, Region.leave_chunk]
    simp [bodyTokens, bodyStop, afterTokens]

/-- What is read of a document up to the end of the chunk's body and behind it. -/
theorem readLines_eq (h : Layout lexer t.lines before header body after) :
    Region.prose.readLines lexer 0 t.lines =
      ((Region.prose.readLines lexer 0 before).1 ++
          wholeLine .chunkStart before.length header ::
            ((Region.chunk none).readLines lexer (before.length + 1) (body ++ after)).1,
        ((Region.chunk none).readLines lexer (before.length + 1) (body ++ after)).2) := by
  have hheader : Region.read lexer before.length header .prose =
      ([wholeLine .chunkStart before.length header], .chunk none) := by
    rw [Region.read, if_pos h.opens]
  rw [h.lines_eq, Region.readLines_append, h.prose, Nat.zero_add, Region.readLines_cons, hheader]
  rfl

/-- **The tokens of a document around a chunk.** -/
theorem documentTokens_eq (h : Layout lexer t.lines before header body after) :
    lexer.documentTokens t =
      (Region.prose.readLines lexer 0 before).1 ++
        wholeLine .chunkStart before.length header ::
          (bodyTokens lexer (before.length + 1) body after ++
            afterTokens lexer (before.length + 1 + body.length) after) := by
  rw [Lexer.documentTokens, Lexer.documentLines_eq _ (Text.lines_ne_nil t), h.readLines_eq,
    ← h.readLines_body]
  simp

theorem bodyTokens_isCode : ∀ token ∈ bodyTokens lexer row body after, token.IsCode := by
  intro token htoken
  rcases List.mem_append.mp htoken with htoken | htoken
  · exact lexLines_isCode none body token htoken
  · exact isCode_of_mem_abandoned htoken

theorem feed_not_mem (h : Layout lexer t.lines before header body after) :
    ∀ line ∈ body, '\n' ∉ line := by
  intro line hline
  refine Text.feed_not_mem_of_mem_lines (t := t) ?_
  rw [h.lines_eq]
  simp [hline]

/-- The lines of a body, read alone. -/
theorem codeTokens_ofLines (lexer : Lexer) (hbody : ∀ line ∈ body, '\n' ∉ line) :
    lexer.codeTokens (Text.ofLines body) = bodyTokens lexer 0 body [] := by
  by_cases hnil : body = []
  · subst hnil
    exact lexer.codeTokens_nil
  · rw [Lexer.codeTokens_eq, Text.lines_ofLines hnil hbody]
    rfl

/-- The first boundary behind the body of a chunk is the line that closes it. -/
theorem closingRow?_bodyTokens :
    Chunk.closingRow?
        (bodyTokens lexer row body after ++ afterTokens lexer (row + body.length) after) =
      after.head?.map fun _ => row + body.length := by
  rw [Chunk.closingRow?_append bodyTokens_isCode]
  cases after <;> rfl

/-- The tokens behind the header of a chunk start behind its row. -/
theorem row_of_mem_body (h : Layout lexer t.lines before header body after) :
    ∀ token ∈ bodyTokens lexer (before.length + 1) body after ++
        afterTokens lexer (before.length + 1 + body.length) after,
      before.length < token.start.row := by
  intro token htoken
  obtain ⟨htokens, hopen⟩ := Region.readLines_row lexer (.chunk none)
    (body ++ after) (Nat.le_refl (before.length + 1)) trivial
  rw [← h.readLines_body] at htoken
  rcases List.mem_append.mp htoken with htoken | htoken
  · exact (htokens token htoken).1
  · exact (Region.leave_row _ hopen token htoken).1

/-- A cursor put on the header of a chunk stands on its token. -/
theorem on_header (h : Layout lexer t.lines before header body after) :
    (Cursor.on (lexer.documentTokens t) ⟨before.length, 0⟩).place =
      (Region.prose.readLines lexer 0 before).1.length + 1 := by
  have habove : ∀ token ∈ (Region.prose.readLines lexer 0 before).1,
      decide (token.start ≤ (⟨before.length, 0⟩ : Position)) = true := by
    intro token htoken
    have hrow := ((Region.readLines_row lexer .prose before
      (Nat.le_refl 0) trivial).1 token htoken).2
    rw [Nat.zero_add] at hrow
    exact decide_eq_true (Or.inl hrow)
  have hheader : decide ((wholeLine .chunkStart before.length header).start ≤
      (⟨before.length, 0⟩ : Position)) = true :=
    decide_eq_true (Position.le_refl _)
  have hbelow : (bodyTokens lexer (before.length + 1) body after ++
      afterTokens lexer (before.length + 1 + body.length) after).takeWhile
        (fun token => decide (token.start ≤ (⟨before.length, 0⟩ : Position))) = [] := by
    have hrow := h.row_of_mem_body
    revert hrow
    -- only the first of the tokens matters
    cases bodyTokens lexer (before.length + 1) body after ++
        afterTokens lexer (before.length + 1 + body.length) after with
    | nil => exact fun _ => rfl
    | cons token more =>
      intro hrow
      have := hrow token List.mem_cons_self
      refine List.takeWhile_cons_of_neg ?_
      rw [decide_eq_true_eq, Position.le_def]
      dsimp only
      omega
  have hplace (tokens : List Token) (p : Position) :
      (Cursor.on tokens p).place = (tokens.takeWhile (decide <| ·.start ≤ p)).length := rfl
  rw [hplace, h.documentTokens_eq, List.takeWhile_append_of_pos habove,
    List.takeWhile_cons, if_pos hheader, hbelow, List.length_append]
  rfl

/-- The row that ends the chunk around its header. -/
theorem endRow?_eq (h : Layout lexer t.lines before header body after) :
    RmdOptions.endRow? (lexer.documentTokens t) ⟨before.length, 0⟩ =
      Layout.endRow? before body after := by
  have hbody : (bodyTokens lexer (before.length + 1) body after).find? Token.isBoundary = none := by
    rw [List.find?_eq_none]
    intro token htoken
    simpa [Token.isBoundary] using (bodyTokens_isCode token htoken).2
  rw [RmdOptions.endRow?, h.on_header, h.documentTokens_eq, List.append_cons, List.drop_left',
    List.find?_append, hbody, Option.none_or]
  · cases after <;> rfl
  · rw [List.length_append, List.length_singleton]

/-- The rows between the header of a chunk and its end. -/
theorem rows_eq (h : Layout lexer t.lines before header body after) :
    (t.lines.take ((Layout.endRow? before body after).getD t.lines.length)).drop
      (before.length + 1) = body := by
  have hlines : t.lines = (before ++ header :: body) ++ after := by simp [h.lines_eq]
  have htake : t.lines.take ((Layout.endRow? before body after).getD t.lines.length) =
      before ++ header :: body := by
    rw [hlines]
    cases after with
    | nil => rw [List.append_nil, Layout.endRow?, List.head?_nil, Option.map_none,
        Option.getD_none, List.take_length]
    | cons fence more =>
      refine List.take_left' ?_
      simp only [List.length_append, List.length_cons, Layout.endRow?, List.head?_cons,
        Option.map_some, Option.getD_some]
      omega
  rw [htake, List.append_cons, List.drop_left']
  rw [List.length_append, List.length_singleton]

/-- What a document holds in a chunk. -/
theorem body_eq {doc : Document} (h : Layout lexer doc.text.lines before header body after)
    (hfeeds : doc.text.FeedsOnly) :
    doc.body before.length (Layout.endRow? before body after) = Text.ofLines body := by
  rw [Document.body, Text.shownRows_eq hfeeds, Text.rowCount_eq hfeeds, h.rows_eq]

end Layout

/-- **Every chunk of a document has a layout.** -/
theorem exists_layout {t : Text} {chunk : Chunk}
    (h : chunk ∈ Chunk.ofTokens (lexer.documentTokens t)) :
    ∃ before header body after, Layout lexer t.lines before header body after ∧
      chunk.header = ⟨before.length, 0⟩ ∧ chunk.endRow = Layout.endRow? before body after := by
  rw [Lexer.documentTokens, Lexer.documentLines_eq _ (Text.lines_ne_nil t)] at h
  obtain ⟨before, header, more, hlines, hprose, hopens, hheader, hend⟩ :=
    exists_header_of_mem (Region.leave_ne_chunkStart _ _) h
  rw [Nat.zero_add] at hheader hend
  have hlayout := Layout.of_opens hlines hprose hopens
  refine ⟨before, header, _, _, hlayout, hheader, ?_⟩
  have hread := hlayout.readLines_body
  rw [List.takeWhile_append_dropWhile] at hread
  rw [hend, hlayout.readLines_eq, List.takeWhile_append_dropWhile, hread,
    Layout.closingRow?_bodyTokens]
  rfl

end RmdOptions

import Mathlib.Data.List.Find
import Mathlib.Data.List.Nodup
import RmdOptions.Proofs.Chunk.Row
import RmdOptions.Proofs.Panel.Reopen

/-!
# Opening a panel

A panel is opened on a chunk that is chosen, if that holds R code. All chunks do, since a row that
names no such engine opens none. So once a chunk has been chosen, nothing fails any more.

* `Chunk.find?_row` — a chunk is the only one on its row;
* `Chunk.choose_some_iff`, `Chunk.setup?_eq` — which chunks can be chosen;
* `Panel.exists_openOn_iff` — opening succeeds whenever a chunk is chosen;
* `Panel.openOn_chunks` — **what can be opened**.
-/

namespace RmdOptions

namespace Chunk

variable {lexer : Lexer} {t : Text} {chunks : List Chunk} {chunk : Chunk}

/-- A header starts its row. -/
theorem header_eq_of_mem (h : chunk ∈ ofTokens (lexer.documentTokens t)) :
    chunk.header = ⟨chunk.header.row, 0⟩ := by
  obtain ⟨line, -, -, hheader, -⟩ := exists_line_of_mem h
  exact hheader

/-- Chunks start on different rows. -/
theorem rows_nodup (lexer : Lexer) (t : Text) :
    ((ofTokens (lexer.documentTokens t)).map (·.header.row)).Nodup := by
  have hchunks := ofTokens_pairwise (lexer.documentTokens_tiles t).start_lt_start
  refine List.pairwise_map.mpr (hchunks.imp_of_mem fun hfirst hlater hlt hrow => ?_)
  -- headers start their rows, so that only their rows can tell them apart
  rw [header_eq_of_mem hfirst, header_eq_of_mem hlater, hrow, Position.lt_def] at hlt
  omega

/-- **A chunk is the only one on its row.** -/
theorem find?_row (h : chunk ∈ ofTokens (lexer.documentTokens t)) :
    (ofTokens (lexer.documentTokens t)).find? (·.header.row = chunk.header.row) = some chunk := by
  obtain ⟨found, hfind⟩ : ∃ found, (ofTokens (lexer.documentTokens t)).find?
      (·.header.row = chunk.header.row) = some found :=
    Option.isSome_iff_exists.mp (List.find?_isSome.mpr ⟨chunk, h, by simp⟩)
  have hrow : found.header.row = chunk.header.row := by simpa using List.find?_some hfind
  rw [hfind, List.inj_on_of_nodup_map (rows_nodup lexer t) (List.mem_of_find?_eq_some hfind) h hrow]

theorem choose_some_iff {n : Nat} : choose chunks (some n) = .ok chunk ↔
    1 ≤ n ∧ chunks.find? (·.header.row = n - 1) = some chunk := by
  cases n with
  | zero => exact ⟨nofun, nofun⟩
  | succ row =>
    rw [choose, Nat.add_sub_cancel]
    cases chunks.find? (·.header.row = row) with
    | none => exact ⟨nofun, nofun⟩
    | some found => simp

theorem choose_none_iff : choose chunks none = .ok chunk ↔ setup? chunks = some chunk := by
  rw [choose]
  cases setup? chunks with
  | none => exact ⟨nofun, nofun⟩
  | some found => simp

/-- Choosing a chunk does not fail for what it holds. -/
theorem choose_ne_notRChunk (line : Option Nat) (n : Nat) :
    choose chunks line ≠ .error (.notRChunk n) := by
  intro h
  rw [choose.eq_def] at h
  split at h
  · split at h
    · cases h
    · cases h
  · cases h
  · split at h
    · cases h
    · cases h

/-- Among chunks of R code the setup chunk is told by its label. -/
theorem setup?_eq (h : ∀ chunk ∈ chunks, chunk.isR = true) :
    setup? chunks = (chunks.find? (·.label == some setupLabel)).or chunks.head? := by
  have hlabel : chunks.find? (fun chunk => chunk.isR && chunk.label == some setupLabel) =
      chunks.find? (·.label == some setupLabel) :=
    List.find?_congr fun chunk hchunk => by rw [h chunk hchunk, Bool.true_and]
  have hfirst : chunks.find? isR = chunks.head? := by
    cases chunks with
    | nil => rfl
    | cons first more => exact List.find?_cons_of_pos (h first List.mem_cons_self)
  rw [setup?, hlabel, hfirst]

/-- When there are chunks, one of them is chosen as the setup chunk. -/
theorem exists_choose_none_iff (h : ∀ chunk ∈ chunks, chunk.isR = true) :
    (∃ chunk, choose chunks none = .ok chunk) ↔ chunks ≠ [] := by
  constructor
  · rintro ⟨chunk, hchoose⟩
    exact List.ne_nil_of_mem (mem_of_choose hchoose)
  · intro hne
    obtain ⟨first, more, rfl⟩ := List.exists_cons_of_ne_nil hne
    refine Option.isSome_iff_exists.mp ?_ |>.imp fun chunk => choose_none_iff.mpr
    rw [setup?_eq h, Option.isSome_or, List.head?_cons, Option.isSome_some, Bool.or_true]

end Chunk

namespace Panel

variable {config : Config} {line : Option Nat} {doc : Document} {panel : Panel}

/-- **Opening only fails when no chunk is chosen.** -/
theorem openOn_eq_map (doc : Document) (line : Option Nat) (config : Config) :
    openOn doc line config =
      (Chunk.choose (Chunk.ofTokens
        ((Lexer.closedBy config.closingFence).documentTokens doc.text)) line).map fun chunk =>
          (Panel.new ⟨chunk.header.row, 0⟩ (Lexer.closedBy config.closingFence).documentTokens
            config).readBaseline doc config.readOptions := by
  rw [openOn]
  cases hchoose : Chunk.choose (Chunk.ofTokens
      ((Lexer.closedBy config.closingFence).documentTokens doc.text)) line with
  | error cause => rfl
  | ok chunk => exact if_pos (Chunk.isR_of_mem (Chunk.mem_of_choose hchoose))

theorem exists_openOn_iff : (∃ panel, openOn doc line config = .ok panel) ↔
    ∃ chunk, Chunk.choose (Chunk.ofTokens
      ((Lexer.closedBy config.closingFence).documentTokens doc.text)) line = .ok chunk := by
  rw [openOn_eq_map]
  cases Chunk.choose (Chunk.ofTokens
      ((Lexer.closedBy config.closingFence).documentTokens doc.text)) line with
  | error cause => exact ⟨nofun, nofun⟩
  | ok chunk => exact ⟨fun _ => ⟨chunk, rfl⟩, fun _ => ⟨_, rfl⟩⟩

/-- **A panel can be opened on every chunk, and on nothing else.** A line that the pattern for
headers accepts names R as its engine. So all chunks of a document hold R code, and no panel is
refused for what its chunk holds. Given a line, opening succeeds just when a chunk starts on it, and
given none, when there is a chunk at all: then it is the first one that is labelled as the setup
chunk, or else the first one. The options of a panel that has been opened are known. -/
theorem openOn_chunks :
    (∀ line : Text, '\n' ∉ line → Fence.opensChunk line = true →
      Header.engine line = ['r'] ∨ Header.engine line = ['R']) ∧
    ∀ (doc : Document) (config : Config),
      let tokens := (Lexer.closedBy config.closingFence).documentTokens doc.text
      let chunks := Chunk.ofTokens tokens
      (∀ chunk ∈ chunks, chunk.isR = true) ∧
      (∀ (line : Option Nat) (n : Nat), openOn doc line config ≠ .error (.notRChunk n)) ∧
      (∀ n, (∃ panel, openOn doc (some n) config = .ok panel) ↔
        1 ≤ n ∧ ∃ token ∈ tokens, token.kind = .chunkStart ∧ token.start.row = n - 1) ∧
      ((∃ panel, openOn doc none config = .ok panel) ↔ chunks ≠ []) ∧
      (∀ chunk, (chunks.find? (·.label == some Chunk.setupLabel)).or chunks.head? = some chunk →
        openOn doc none config = openOn doc (some (chunk.header.row + 1)) config) ∧
      ∀ (line : Option Nat) (panel : Panel), openOn doc line config = .ok panel →
        ∃ baseline, panel.baseline = .ready baseline := by
  refine ⟨fun line _ => Fence.engine_of_opensChunk, fun doc config => ?_⟩
  intro tokens chunks
  have hR : ∀ chunk ∈ chunks, chunk.isR = true := fun chunk => Chunk.isR_of_mem
  have hsetup : Chunk.setup? chunks =
      (chunks.find? (·.label == some Chunk.setupLabel)).or chunks.head? := Chunk.setup?_eq hR
  refine ⟨hR, fun line n h => ?_, fun n => ?_, ?_, fun chunk hchunk => ?_, fun line panel =>
    ready_of_openOn⟩
  · rw [openOn_eq_map] at h
    cases hchoose : Chunk.choose chunks line with
    | error cause =>
      rw [hchoose] at h
      cases h
      exact Chunk.choose_ne_notRChunk line n hchoose
    | ok chunk =>
      rw [hchoose] at h
      cases h
  · rw [exists_openOn_iff]
    constructor
    · rintro ⟨chunk, hchoose⟩
      obtain ⟨hn, hfind⟩ := Chunk.choose_some_iff.mp hchoose
      obtain ⟨token, htoken, hkind, hstart, -⟩ :=
        Chunk.exists_token_of_mem (List.mem_of_find?_eq_some hfind)
      have hrow : chunk.header.row = n - 1 := by simpa using List.find?_some hfind
      exact ⟨hn, token, htoken, hkind, hstart ▸ hrow⟩
    · rintro ⟨hn, token, htoken, hkind, hrow⟩
      obtain ⟨chunk, hchunk, hheader⟩ := Chunk.exists_mem_of_token htoken hkind
      refine ⟨chunk, Chunk.choose_some_iff.mpr ⟨hn, ?_⟩⟩
      rw [← hrow, ← hheader]
      exact Chunk.find?_row hchunk
  · rw [exists_openOn_iff]
    exact Chunk.exists_choose_none_iff hR
  · rw [← hsetup] at hchunk
    have hnone : Chunk.choose chunks none = .ok chunk := Chunk.choose_none_iff.mpr hchunk
    have hsome : Chunk.choose chunks (some (chunk.header.row + 1)) = .ok chunk :=
      Chunk.choose_some_iff.mpr
        ⟨Nat.succ_pos _, Chunk.find?_row (Chunk.mem_of_setup? hchunk)⟩
    rw [openOn_eq_map, openOn_eq_map, hnone, hsome]

/-- The second chunk is the setup chunk. -/
theorem openOn_chunks_sample :
    let doc := Document.load "\x60\x60\x60{r}\n\x60\x60\x60\n\x60\x60\x60{R setup}\n".toList
    (Header.engine "\x60\x60\x60{R setup}".toList = ['r'] ∨
      Header.engine "\x60\x60\x60{R setup}".toList = ['R']) ∧
    (∃ panel, openOn doc (some 3) {} = .ok panel) ∧
      openOn doc none {} = openOn doc (some 3) {} := by
  intro doc
  obtain ⟨hengine, hchunks⟩ := openOn_chunks
  obtain ⟨-, -, hline, -, hsetup, -⟩ := hchunks doc {}
  have htoken : wholeLine .chunkStart 2 "\x60\x60\x60{R setup}".toList ∈
      (Lexer.closedBy ['\x60', '\x60', '\x60']).documentTokens doc.text := by
    decide +kernel
  have hchosen : ((Chunk.ofTokens ((Lexer.closedBy ['\x60', '\x60', '\x60']).documentTokens
      doc.text)).find? (·.label == some Chunk.setupLabel)).or (Chunk.ofTokens
        ((Lexer.closedBy ['\x60', '\x60', '\x60']).documentTokens doc.text)).head? =
      some ⟨⟨2, 0⟩, none, ['R'], some Chunk.setupLabel⟩ := by
    decide +kernel
  exact ⟨hengine _ (by decide) (by decide +kernel),
    (hline 3).mpr ⟨by decide, _, htoken, rfl, rfl⟩, hsetup _ hchosen⟩

end Panel

end RmdOptions

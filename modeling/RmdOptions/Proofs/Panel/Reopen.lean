import RmdOptions.Proofs.Chunk.Row
import RmdOptions.Proofs.Options.Sorted
import RmdOptions.Proofs.Panel.Stable
import RmdOptions.Proofs.Panel.Structure
import RmdOptions.Proofs.Token.Tiling

/-!
# Opening a chunk again

A chunk is chosen by the line of its header, or as the setup chunk. A commit to it moves the chunks
below and changes no header, so the same choice leads to the same chunk. There the options are read
that the commit has written, and the same edit writes the same call again.

* `Chunk.ofTokens_pairwise` — chunks follow one another;
* `Chunk.choose_map_moveRows` — the choice when the chunks below have moved;
* `Panel.openOn_eq_ok_iff` — what opening a chunk does;
* `Panel.exists_reopened` — **the same edit after opening the chunk again**.
-/

namespace RmdOptions

/-! ## Choosing a chunk -/

namespace Chunk

variable {chunks : List Chunk} {chunk : Chunk} {line : Option Nat}

/-- Chunks start one behind the other when tokens do. -/
theorem ofTokens_pairwise {tokens : List Token}
    (h : tokens.Pairwise fun token later => token.start < later.start) :
    (ofTokens tokens).Pairwise fun chunk later => chunk.header < later.header := by
  have hheaders : (ofTokens tokens).map (·.header) =
      (tokens.filter (·.kind = .chunkStart)).map (·.start) := by
    have hheadings := congrArg (List.map Prod.fst) (map_heading_ofTokens tokens)
    rw [List.map_map, List.map_map] at hheadings
    exact hheadings
  have hstarts := List.pairwise_map.mpr (h.filter (·.kind = .chunkStart))
  rw [← hheaders] at hstarts
  exact List.pairwise_map.mp hstarts

theorem mem_of_setup? (h : setup? chunks = some chunk) : chunk ∈ chunks := by
  rcases Option.or_eq_some_iff.mp h with h | ⟨-, h⟩
  · exact List.mem_of_find?_eq_some h
  · exact List.mem_of_find?_eq_some h

theorem mem_of_choose (h : choose chunks line = .ok chunk) : chunk ∈ chunks := by
  rw [choose.eq_def] at h
  split at h
  · split at h
    · cases h
    · next hsetup =>
      cases h
      exact mem_of_setup? hsetup
  · cases h
  · split at h
    · cases h
    · next hfind =>
      cases h
      exact List.mem_of_find?_eq_some hfind

/-- The setup chunk is told by its engine and its label. -/
theorem setup?_map_moveRows (f : Nat → Nat) (chunks : List Chunk) :
    setup? (chunks.map (moveRows f)) = (setup? chunks).map (moveRows f) := by
  rw [setup?, setup?, List.find?_map, List.find?_map, Option.map_or]
  rfl

@[simp] theorem moveRows_row (f : Nat → Nat) (chunk : Chunk) :
    (chunk.moveRows f).header.row = f chunk.header.row := rfl

theorem movedRow_of_le {fixed row : Nat} (h : row ≤ fixed) (old new : Nat) :
    movedRow fixed old new row = row := if_pos h

/-- When the chunks below a chunk move, none of them comes to stand on its row. -/
theorem find?_map_moveRows {row : Nat}
    (hchunks : chunks.Pairwise fun chunk later => chunk.header < later.header)
    (h : chunks.find? (·.header.row = row) = some chunk) (old new : Nat) :
    (chunks.map (moveRows (movedRow chunk.header.row old new))).find? (·.header.row = row) =
      some (chunk.moveRows (movedRow chunk.header.row old new)) := by
  obtain ⟨hrow, earlier, later, rfl, hearlier⟩ := List.find?_eq_some_iff_append.mp h
  rw [List.map_append, List.map_cons, List.find?_append, List.find?_eq_none.mpr, Option.none_or,
    List.find?_cons_of_pos]
  · rw [moveRows_row, movedRow_of_le (Nat.le_refl _)]
    exact hrow
  · intro moved hmoved
    obtain ⟨first, hfirst, rfl⟩ := List.mem_map.mp hmoved
    -- those above it stay where they are
    have hlt := (List.pairwise_append.mp hchunks).2.2 first hfirst chunk List.mem_cons_self
    have hle : first.header.row ≤ chunk.header.row := by
      rw [Position.lt_def] at hlt
      omega
    rw [moveRows_row, movedRow_of_le hle]
    simpa using hearlier first hfirst

/-- **The choice stays** when the chunks below the chosen one move. -/
theorem choose_map_moveRows
    (hchunks : chunks.Pairwise fun chunk later => chunk.header < later.header)
    (h : choose chunks line = .ok chunk) (old new : Nat) :
    choose (chunks.map (moveRows (movedRow chunk.header.row old new))) line =
      .ok (chunk.moveRows (movedRow chunk.header.row old new)) := by
  rw [choose.eq_def] at h ⊢
  split at h
  · split at h
    · cases h
    · next hsetup =>
      cases h
      simp only [setup?_map_moveRows, hsetup, Option.map_some]
  · cases h
  · split at h
    · cases h
    · next hfind =>
      cases h
      simp only [find?_map_moveRows hchunks hfind]

end Chunk

/-! ## Opening a chunk -/

namespace Panel

variable {config : Config} {line : Option Nat} {doc : Document} {panel : Panel}

/-- A panel is opened on the chunk that is chosen if it holds R code. -/
theorem openOn_eq_ok_iff : openOn doc line config = .ok panel ↔
    ∃ chunk, Chunk.choose (Chunk.ofTokens
        ((Lexer.closedBy config.closingFence).documentTokens doc.text)) line = .ok chunk ∧
      chunk.isR = true ∧
      (Panel.new ⟨chunk.header.row, 0⟩ (Lexer.closedBy config.closingFence).documentTokens
        config).readBaseline doc config.readOptions = panel := by
  rw [openOn]
  cases Chunk.choose (Chunk.ofTokens
      ((Lexer.closedBy config.closingFence).documentTokens doc.text)) line with
  | error cause => exact ⟨nofun, nofun⟩
  | ok chunk =>
    dsimp only [bind, Except.bind, pure, Except.pure]
    split
    · next hR =>
      constructor
      · intro h
        cases h
        exact ⟨chunk, rfl, hR, rfl⟩
      · rintro ⟨_, ⟨⟩, -, rfl⟩
        rfl
    · next hR =>
      constructor
      · nofun
      · rintro ⟨_, ⟨⟩, hR', -⟩
        exact absurd hR' hR

/-- The baseline of a panel that is opened is known. -/
theorem ready_of_openOn (h : openOn doc line config = .ok panel) :
    ∃ baseline, panel.baseline = .ready baseline := by
  obtain ⟨chunk, -, -, rfl⟩ := openOn_eq_ok_iff.mp h
  rw [readBaseline_eq_seed]
  exact ⟨_, rfl⟩

/-- **The same edit after opening the chunk again.** A panel is opened on a chunk, and plain options
are committed, over a call that ends its row if there is one. Whoever chooses the chunk in the same
way in the new text opens it again, starts from what has been written, and by committing the same
edit leaves the text as it is. -/
theorem exists_reopened (hconfig : config.IsUsual)
    (hempty : Fence.closes config.closingFence [] = false) (hfeeds : doc.text.FeedsOnly)
    (hopen : openOn doc line config = .ok panel) {baseline : OptionMap}
    (hready : panel.baseline = .ready baseline) {edits : Edits}
    (hplain : (baseline.merge edits).IsPlain) (hne : (baseline.merge edits).entries ≠ [])
    (hends : panel.EndsRow doc) :
    ∃ outcome doc' panel', panel.commit doc edits = .ok (outcome, doc', panel') ∧
      doc'.text.FeedsOnly ∧
      ∀ again : Document, again.text = doc'.text →
        ∃ reopened, openOn again line config = .ok reopened ∧
          reopened.baseline = .ready ((baseline.merge edits).written config) ∧
          ∃ outcome' doc'' panel'', reopened.commit again edits = .ok (outcome', doc'', panel'') ∧
            doc''.text = doc'.text := by
  obtain ⟨chunk, hchoose, hR, hpanel⟩ := openOn_eq_ok_iff.mp hopen
  obtain ⟨before, header, body, after, hlayout, hheader, -⟩ :=
    exists_layout (Chunk.mem_of_choose hchoose)
  have hrow : chunk.header.row = before.length := by rw [hheader]
  rw [readBaseline_eq_seed, hrow] at hpanel
  generalize (config.readOptions _).toOption.getD .empty = options at hpanel
  subst hpanel
  obtain rfl : options = baseline := Baseline.ready.inj hready
  have hfeed : ((options.merge edits).render config).withLineFeeds =
      (options.merge edits).render config :=
    hplain.withLineFeeds_render hconfig.plain hne
  obtain ⟨outcome, doc', panel', hcommit, htext, -⟩ :=
    hlayout.commit_eq_surgery hfeeds config options edits
  rw [hfeed] at htext
  obtain ⟨hfeeds', body', hlayout'⟩ := hlayout.exists_layout_surgery hconfig hempty hfeeds
    (.ready options) hplain hne hends htext
  refine ⟨outcome, doc', panel', hcommit, hfeeds', fun again hagain => ?_⟩
  rw [← hagain] at htext hfeeds' hlayout' ⊢
  -- the chunk is chosen again
  have hchunks := Chunk.ofTokens_pairwise
    ((Lexer.closedBy config.closingFence).documentTokens_tiles doc.text).start_lt_start
  have hchoose' := Chunk.choose_map_moveRows hchunks hchoose doc.text.lines.length
    again.text.lines.length
  rw [hrow, ← hlayout.ofTokens_eq_map hlayout'] at hchoose'
  -- the options are those that have been written
  have hread := hlayout.readOptions_surgery hconfig hfeeds (.ready options) hplain hne htext
  have hopen' : openOn again line config = .ok ((Panel.new ⟨before.length, 0⟩
      (Lexer.closedBy config.closingFence).documentTokens config).seed
        ((options.merge edits).written config)) := by
    refine openOn_eq_ok_iff.mpr ⟨_, hchoose', hR, ?_⟩
    rw [Chunk.moveRows_row, hrow, Chunk.movedRow_of_le (Nat.le_refl _)]
    exact readBaseline_of_ok hread
  -- and writing them once more changes nothing
  obtain ⟨-, -, -, hsame⟩ := hlayout.surgery_written hconfig hfeeds (.ready options)
    (.ready ((options.merge edits).written config)) hplain hne htext
  obtain ⟨outcome', doc'', panel'', hcommit', htext', -⟩ :=
    hlayout'.commit_eq_surgery hfeeds' config ((options.merge edits).written config) edits
  rw [OptionMap.written_merge, OptionMap.render_written, hfeed, hsame] at htext'
  exact ⟨_, hopen', rfl, outcome', doc'', panel'', hcommit', htext'⟩

end Panel

end RmdOptions

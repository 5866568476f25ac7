import RmdOptions.Proofs.Panel.Frame
import RmdOptions.Proofs.Panel.ReadBack
import RmdOptions.Proofs.Token.Outline

/-!
# Chunks after a commit

A commit exchanges the body of its chunk. When the call that it writes over ends its row, or there
is none, the lines behind the call are whole lines of the old body, and the written lines are no
fences. So the document has the same chunks as before, and what is below the header moves with its
rows.

The condition is needed: behind a call that does not end its row, the rest of the row comes to stand
on a row of its own, and may close the chunk there.

* `Panel.EndsRow` — the calls that end their row;
* `Layout.dropWhile_resumedLines`, `Layout.exists_after_of_endsRow` — what stays behind the call;
* `Layout.exists_layout_surgery` — the chunk after the commit;
* `Panel.commit_chunks` — **all chunks after a commit**.
-/

namespace RmdOptions

/-- Whether the call that a panel finds ends its row, if it finds one. -/
def Panel.EndsRow (panel : Panel) (doc : Document) : Prop :=
  ∀ call, panel.locate doc = some call → call.stop.column = doc.text.rowWidth call.stop.row

/-! ## Behind the call -/

namespace Layout

variable {config : Config} {lexer : Lexer} {before body after below : List Text} {header : Text}
variable {doc doc' : Document} {m : OptionMap}

/-- Behind lines of the body, the chunk is closed where it was. An empty line that is put where
there are none does not close it. -/
theorem dropWhile_resumedLines (h : Layout lexer doc.text.lines before header body after)
    (hempty : Fence.closes lexer.closingFence [] = false) (hbelow : ∀ line ∈ below, line ∈ body) :
    (resumedLines [] (below ++ after)).dropWhile
        (fun line => !Fence.closes lexer.closingFence line) = after := by
  by_cases hnil : below ++ after = []
  · obtain ⟨rfl, rfl⟩ := List.append_eq_nil_iff.mp hnil
    rw [List.append_nil, resumedLines_nil]
    apply List.dropWhile_cons_of_pos
    rw [hempty]
    rfl
  · have hopen : ∀ line ∈ below, (!Fence.closes lexer.closingFence line) = true := by
      intro line hline
      rw [h.body_open line (hbelow line hline)]
      rfl
    rw [resumedLines_of_ne_nil hnil, List.dropWhile_append_of_pos hopen]
    cases after with
    | nil => rfl
    | cons fence more =>
      apply List.dropWhile_cons_of_neg
      rw [h.after_closes fence rfl]
      exact Bool.false_ne_true

/-- Behind a call that ends its row, or the header when there is no call, stay whole lines of the
body and all that follows it. -/
theorem exists_after_of_endsRow (h : Layout lexer doc.text.lines before header body after)
    (hfeeds : doc.text.FeedsOnly) {panel : Panel} (hchunk : panel.chunkStart = ⟨before.length, 0⟩)
    (htokenize : panel.tokenize = lexer.documentTokens) (hends : panel.EndsRow doc) (code : Text) :
    ∃ below, (∀ line ∈ below, line ∈ body) ∧
      (panel.surgery doc code).after = Text.ofLines (resumedLines [] (below ++ after)) := by
  cases hlocate : panel.locate doc with
  | none => exact ⟨body, fun _ hline => hline, h.surgery_after_of_none hfeeds hchunk hlocate code⟩
  | some call =>
    obtain ⟨-, hstop, habove, hbelow⟩ := h.places_of_locate hchunk htokenize hlocate
    obtain ⟨head, tail, hlines, hplace, hline⟩ := hstop.exists_lines_eq
    -- nothing is left of the row
    obtain rfl : tail = [] := by
      have hend := hends call hlocate
      rw [Text.rowWidth_eq hfeeds hline, hplace, List.length_append] at hend
      exact List.length_eq_zero_iff.mp (Nat.left_eq_add.mp hend)
    have hle := call.start_le_stop
    rw [Position.le_def] at hle
    obtain ⟨n, hn⟩ : ∃ n, call.stop.row + 1 = before.length + 1 + n ∧ n ≤ body.length :=
      ⟨call.stop.row - before.length, by omega, by omega⟩
    have hdrop : doc.text.lines.drop (call.stop.row + 1) = body.drop n ++ after := by
      have hfront : before.length + 1 = (before ++ [header]).length := by simp
      rw [h.lines_eq, hn.1, List.append_cons, hfront, List.drop_length_add_append,
        List.drop_append_of_le_length hn.2]
    refine ⟨body.drop n, fun line hline => List.mem_of_mem_drop hline, ?_⟩
    have hresume := Text.drop_resumeAt hfeeds hlines
    rw [← hplace, hdrop] at hresume
    simp only [Panel.surgery, hlocate]
    exact hresume

/-- **The chunk after a commit ends where it did.** Only its body is another one. -/
theorem exists_layout_surgery (hconfig : config.IsUsual)
    (hempty : Fence.closes config.closingFence [] = false)
    (h : Layout (.closedBy config.closingFence) doc.text.lines before header body after)
    (hfeeds : doc.text.FeedsOnly) (baseline : Baseline) (hm : m.IsPlain) (hne : m.entries ≠ []) :
    let panel : Panel :=
      ⟨⟨before.length, 0⟩, (Lexer.closedBy config.closingFence).documentTokens, config, baseline⟩
    panel.EndsRow doc → doc'.text = (panel.surgery doc (m.render config)).text →
      doc'.text.FeedsOnly ∧ ∃ body',
        Layout (.closedBy config.closingFence) doc'.text.lines before header body' after := by
  intro panel hends hdoc'
  obtain ⟨first, more, hwritten⟩ := List.exists_cons_of_ne_nil (m.writtenLines_ne_nil config)
  obtain ⟨above, a, rest, earlier, hslot, hrest, hafter, hfeeds', -, hlayout⟩ :=
    h.exists_written hconfig hfeeds baseline hm hne hwritten hdoc'
  obtain ⟨below, hbelow, hafter'⟩ :=
    h.exists_after_of_endsRow hfeeds rfl rfl hends (m.render config)
  -- the lines behind the slot are the ones that stay
  have hunbroken : ∀ line ∈ rest, '\n' ∉ line := fun line hline =>
    (hslot.unbroken line (List.mem_append_right _ (List.mem_cons_of_mem _ hline))).feed_not_mem
  have hresumed : ∀ line ∈ resumedLines [] (below ++ after), '\n' ∉ line := by
    intro line hline
    rcases mem_resumedLines hline with rfl | hline
    · exact List.not_mem_nil
    · rcases List.mem_append.mp hline with hline | hline
      · exact (h.body_unbroken hfeeds line (hbelow line hline)).1.feed_not_mem
      · exact (h.after_unbroken hfeeds line hline).feed_not_mem
  obtain rfl : rest = resumedLines [] (below ++ after) := by
    rw [← Text.lines_ofLines hrest hunbroken, ← hafter, hafter',
      Text.lines_ofLines (resumedLines_ne_nil _ _) hresumed]
  have hcloses : (resumedLines [] (below ++ after)).dropWhile
      (fun line => !Fence.closes config.closingFence line) = after :=
    h.dropWhile_resumedLines hempty hbelow
  rw [hcloses] at hlayout
  exact ⟨hfeeds', _, hlayout⟩

end Layout

/-! ## All chunks -/

/-- A document with two chunks, the first of which has a call on two rows, and the second of which
is not closed. -/
def Document.twoChunks : Document :=
  Document.load
    "\x60\x60\x60{r a}\nopts_chunk$set(b =\n1)\n\x60\x60\x60\n\x60\x60\x60{r c}\ny".toList

namespace Panel

/-- **The chunks of a document survive a commit.** When plain options are written over a call that
ends its row, or into a chunk without one, the chunks that are found afterwards are those found
before, with their engines and labels, closed or not as before. Up to the header of the chunk they
keep their rows, and what is below it moves by as many rows as the document gets longer. -/
theorem commit_chunks {doc : Document} (hfeeds : doc.text.FeedsOnly) {chunk : Chunk}
    (hchunk : chunk ∈ Chunk.ofTokens
      ((Lexer.closedBy (Config.closingFence {})).documentTokens doc.text))
    (baseline : OptionMap) (edits : Edits) (hplain : (baseline.merge edits).IsPlain)
    (hne : (baseline.merge edits).entries ≠ []) :
    let config : Config := {}
    let tokenize := (Lexer.closedBy config.closingFence).documentTokens
    let panel : Panel := ⟨chunk.header, tokenize, config, .ready baseline⟩
    panel.EndsRow doc →
      ∃ outcome doc' panel', panel.commit doc edits = .ok (outcome, doc', panel') ∧
        Chunk.ofTokens (tokenize doc'.text) =
          (Chunk.ofTokens (tokenize doc.text)).map
            (Chunk.moveRows (movedRow chunk.header.row doc.text.rowCount doc'.text.rowCount)) := by
  obtain ⟨before, header, body, after, hlayout, hheader, -⟩ := exists_layout hchunk
  rw [hheader]
  intro config tokenize panel hends
  obtain ⟨outcome, doc', panel', hcommit, htext, -⟩ :=
    hlayout.commit_eq_surgery hfeeds config baseline edits
  have hfeed : ((baseline.merge edits).render config).withLineFeeds =
      (baseline.merge edits).render config :=
    hplain.withLineFeeds_render Config.isPlain_default hne
  rw [hfeed] at htext
  obtain ⟨hfeeds', body', hlayout'⟩ := hlayout.exists_layout_surgery Config.isUsual_default
    (by decide +kernel) hfeeds (.ready baseline) hplain hne hends htext
  refine ⟨outcome, doc', panel', hcommit, ?_⟩
  rw [Text.rowCount_eq hfeeds, Text.rowCount_eq hfeeds']
  exact hlayout.ofTokens_eq_map hlayout'

/-- The call on two rows is written on one, so the second chunk starts one row earlier. -/
theorem commit_chunks_sample :
    let tokenize := (Lexer.closedBy (Config.closingFence {})).documentTokens
    let panel : Panel := ⟨⟨0, 0⟩, tokenize, {}, .ready .empty⟩
    Chunk.ofTokens (tokenize Document.twoChunks.text) =
        [⟨⟨0, 0⟩, some 3, ['r'], some ['a']⟩, ⟨⟨4, 0⟩, none, ['r'], some ['c']⟩] ∧
      ∃ outcome doc' panel',
        panel.commit Document.twoChunks { echo := some falseLiteral } =
            .ok (outcome, doc', panel') ∧
          Chunk.ofTokens (tokenize doc'.text) =
            [⟨⟨0, 0⟩, some 2, ['r'], some ['a']⟩, ⟨⟨3, 0⟩, none, ['r'], some ['c']⟩] := by
  intro tokenize panel
  have hfeeds : Document.twoChunks.text.FeedsOnly := by decide +kernel
  have hchunks : Chunk.ofTokens (tokenize Document.twoChunks.text) =
      [⟨⟨0, 0⟩, some 3, ['r'], some ['a']⟩, ⟨⟨4, 0⟩, none, ['r'], some ['c']⟩] := by
    decide +kernel
  have hchunk : (⟨⟨0, 0⟩, some 3, ['r'], some ['a']⟩ : Chunk) ∈
      Chunk.ofTokens (tokenize Document.twoChunks.text) := by
    rw [hchunks]
    exact List.mem_cons_self
  have hends : panel.EndsRow Document.twoChunks := by
    intro call hcall
    have hlocate : panel.locate Document.twoChunks = some ⟨⟨1, 0⟩, ⟨2, 2⟩, by decide⟩ := by
      decide +kernel
    obtain rfl := Option.some.inj (hcall.symm.trans hlocate)
    decide +kernel
  obtain ⟨outcome, doc', panel', hcommit, hmoved⟩ := commit_chunks hfeeds hchunk .empty
    { echo := some falseLiteral } Edits.isPlain_echoOff (by decide +kernel) hends
  have hrows : doc'.text.rowCount = 5 := by
    have hrun : (panel.commit Document.twoChunks { echo := some falseLiteral }).toOption.map
        (·.2.1.text.rowCount) = some 5 := by
      decide +kernel
    rw [hcommit] at hrun
    exact Option.some.inj hrun
  refine ⟨hchunks, outcome, doc', panel', hcommit, hmoved.trans ?_⟩
  rw [hchunks, hrows]
  decide +kernel

/-- Behind this call stands what closes the chunk once it is on a row of its own, so that the row of
the closing fence does not move. -/
example :
    let tokenize := (Lexer.closedBy (Config.closingFence {})).documentTokens
    let panel : Panel := ⟨⟨0, 0⟩, tokenize, {}, .ready .empty⟩
    let doc := Document.load
      "\x60\x60\x60\x7br\x7d\nopts_chunk$set()\x60\x60\x60\n\x60\x60\x60".toList
    (Chunk.ofTokens (tokenize doc.text)).map (·.endRow) = [some 2] ∧
      (panel.commit doc { echo := some falseLiteral }).toOption.map (fun (_, doc', _) =>
        (doc'.text.rowCount, (Chunk.ofTokens (tokenize doc'.text)).map (·.endRow))) =
          some (4, [some 2]) := by
  decide +kernel

end Panel

end RmdOptions
